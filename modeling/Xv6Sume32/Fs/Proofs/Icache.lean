/-
Coherence of the inode cache.

# The invariant

`Good` is about slots with references. Each is the only one of its inode,
its count is the number of references to it, at most one holder is past
its lock, and its copy, if valid, is the inode on the disk, which is not
free. A slot without references may keep the copy of an inode that has
been changed since in another slot: `iget` takes the first empty slot and
not the one the inode had, and clears `valid` when it does.

# Shape of the argument

Most steps move one holder on with its own slot, while no other is past
the lock: `Good.restage` is the one rule for them. `iget` and `idup` add a
reference (`Good.join`), to a slot made ready for the inode first if it
had none (`Good.vacate`).

`ialloc` changes an inode that is free on the disk, so no valid slot with
references has it. That is why it may come while `iput` is between the
truncation and the decrement: the slot is not valid any more then.
-/
import Xv6Sume32.Fs.Icache
import Xv6Sume32.Fs.Proofs.Files

namespace Xv6Sume32.Fs

open Lib
open Function (update update_apply update_eq_self update_idem update_of_ne update_self)

variable {st : Stage} {fs : FsState} {minor : Int} {devsw : Devsw} {op : Op} {wrote : Dinode → Bool}
    {off : Word}

-- ======== the invariant

/-- The holder is past the inode's sleep lock. -/
def Stage.locks : Stage → Bool
  | .held | .dropping => false
  | .acquired | .locked | .testing | .freeing => true

/-- What a slot is at a place of its holder. -/
def StageOk (ip : Inode) : Stage → Prop
  | .held | .acquired | .dropping => True
  | .locked => ip.valid = true
  | .testing | .freeing => ip.valid = true ∧ ip.copy.nlink = 0

/-- The slot that is referred to. -/
def Handle.slot : Handle → Option (Fin ninode)
  | .uses u => some u.slot
  | .idle | .allocating _ => none

namespace Icache

variable {P : Type}

def slots (handle : P → Handle) (p : P) : Option (Fin ninode) := (handle p).slot

structure Good [Fintype P] (sb : Superblock) (s : Icache P) : Prop where
  formatted : Formatted sb s.fs
  one : ∀ {i j}, 0 < (s.inode i).ref → 0 < (s.inode j).ref →
    (s.inode i).dev = (s.inode j).dev → (s.inode i).inum = (s.inode j).inum → i = j
  count : ∀ i, (s.inode i).ref = refs (slots s.handle) i
  ident : ∀ {p u}, s.handle p = .uses u →
    (s.inode u.slot).dev = rootDev ∧ (s.inode u.slot).inum = u.inum
  lock : ∀ {p u}, s.handle p = .uses u → u.stage.locks = true → (s.inode u.slot).locked = true
  alone : ∀ {p q u v}, s.handle p = .uses u → s.handle q = .uses v → u.slot = v.slot →
    u.stage.locks = true → v.stage.locks = true → p = q
  stage : ∀ {p u}, s.handle p = .uses u → StageOk (s.inode u.slot) u.stage
  copies : ∀ {i}, 0 < (s.inode i).ref → (s.inode i).valid = true →
    (s.inode i).copy = s.fs.disk (s.inode i).inum
      ∧ (s.inode i).minor = s.minor (s.inode i).inum ∧ (s.inode i).copy.kind ≠ .free

/-- A step changes which inode a slot has only if it has no references. -/
def Recycles (s t : Icache P) : Prop :=
  ∀ i, ((t.inode i).dev, (t.inode i).inum) ≠ ((s.inode i).dev, (s.inode i).inum) →
    (s.inode i).ref = 0

/-- What every step has to end with. -/
def Steps [Fintype P] (sb : Superblock) (s t : Icache P) : Prop := Good sb t ∧ Recycles s t

variable {s t : Icache P} {i : Fin ninode}

theorem Recycles.refl (h : t.inode = s.inode) : Recycles s t := fun i hi =>
  absurd (by rw [h]) hi

/-- One slot changes, but not its inode. -/
theorem Recycles.update {new : Inode} (h : t.inode = update s.inode i new)
    (hnew : new.dev = (s.inode i).dev ∧ new.inum = (s.inode i).inum) : Recycles s t := by
  intro j hj
  refine absurd ?_ hj
  rw [h, update_apply]
  split
  · next he => rw [he, hnew.1, hnew.2]
  · rfl

variable [Fintype P] {sb : Superblock} {p q : P} {u : Use} {n : Nat}

-- ======== one holder

theorem Good.ref_pos (h : Good sb s) (hp : s.handle p = .uses u) : 0 < (s.inode u.slot).ref := by
  rw [h.count]
  exact refs_pos p (by simp [slots, hp, Handle.slot])

/-- A slot with references is one of the root device. -/
theorem Good.dev (h : Good sb s) (hi : 0 < (s.inode i).ref) : (s.inode i).dev = rootDev := by
  by_contra hdev
  rw [h.count, Nat.pos_iff_ne_zero] at hi
  refine hi (refs_eq_zero_iff.2 fun p hp => hdev ?_)
  unfold slots at hp
  cases hh : s.handle p with
  | uses u =>
    rw [hh] at hp
    cases hp
    exact (h.ident hh).1
  | idle => simp [hh, Handle.slot] at hp
  | allocating n => simp [hh, Handle.slot] at hp

/-- The slot of a holder is the only one of its inode. -/
theorem Good.only (h : Good sb s) (hp : s.handle p = .uses u) (hi : 0 < (s.inode i).ref)
    (hn : (s.inode i).inum = u.inum) : i = u.slot := by
  obtain ⟨hdev, hinum⟩ := h.ident hp
  exact h.one hi (h.ref_pos hp) ((h.dev hi).trans hdev.symm) (hn.trans hinum.symm)

theorem Good.copy (h : Good sb s) (hp : s.handle p = .uses u) (hv : (s.inode u.slot).valid = true) :
    (s.inode u.slot).copy = s.fs.disk u.inum ∧ (s.inode u.slot).minor = s.minor u.inum
      ∧ (s.inode u.slot).copy.kind ≠ .free := by
  have := h.copies (h.ref_pos hp) hv
  rwa [(h.ident hp).2] at this

/-- Whoever is past the lock is alone there. -/
theorem Good.sole (h : Good sb s) (hp : s.handle p = .uses u) (hu : u.stage.locks = true) :
    ∀ q v, q ≠ p → s.handle q = .uses v → v.slot = u.slot → v.stage.locks = false := by
  intro q v hqp hq hv
  refine Bool.eq_false_of_not_eq_true fun hlocks => hqp ?_
  exact h.alone hq hp hv hlocks hu

/-- Nobody is past a lock that is free. -/
theorem Good.unlocked (h : Good sb s) (hi : (s.inode i).locked = false) :
    ∀ q v, q ≠ p → s.handle q = .uses v → v.slot = i → v.stage.locks = false := by
  rintro q v - hq rfl
  refine Bool.eq_false_of_not_eq_true fun hlocks => ?_
  rw [h.lock hq hlocks] at hi
  cases hi

variable [DecidableEq P]

omit [Fintype P] in
theorem slots_update {handle : P → Handle} {v : Handle} :
    slots (update handle p v) = update (slots handle) p v.slot := by
  funext q
  by_cases hq : q = p
  · subst hq
    simp [slots]
  · simp [slots, hq]

omit [Fintype P] in
/-- The holders after one has changed. -/
theorem uses_update {handle : P → Handle} {h : Handle} {v : Use}
    (hq : update handle p h q = .uses v) :
    (q = p ∧ h = .uses v) ∨ (q ≠ p ∧ handle q = .uses v) := by
  rw [update_apply] at hq
  split at hq
  · next he => exact Or.inl ⟨he, hq⟩
  · next he => exact Or.inr ⟨he, hq⟩

/-- A holder goes on with its slot while no other is past the lock. -/
theorem Good.restage (h : Good sb s) (hp : s.handle p = .uses u)
    (halone : ∀ q v, q ≠ p → s.handle q = .uses v → v.slot = u.slot → v.stage.locks = false)
    (new : Inode) {minor : Nat → Int}
    (hsame : new.dev = (s.inode u.slot).dev ∧ new.inum = (s.inode u.slot).inum
      ∧ new.ref = (s.inode u.slot).ref)
    (hlock : st.locks = true → new.locked = true) (hstage : StageOk new st) (hfs : Formatted sb fs)
    (hrest : ∀ n, n ≠ u.inum → fs.disk n = s.fs.disk n ∧ minor n = s.minor n)
    (hcopy : new.valid = true →
      new.copy = fs.disk u.inum ∧ new.minor = minor u.inum ∧ new.copy.kind ≠ .free) :
    Steps sb s { inode := update s.inode u.slot new, fs := fs, minor := minor
                 handle := update s.handle p (.uses ⟨st, u.slot, u.inum⟩) } := by
  refine ⟨?_, .update rfl ⟨hsame.1, hsame.2.1⟩⟩
  have hself : update s.inode u.slot new u.slot = new := update_self ..
  have hne : ∀ {j}, j ≠ u.slot → update s.inode u.slot new j = s.inode j := fun hj =>
    update_of_ne hj _ _
  have hslot : ∀ j, (update s.inode u.slot new j).dev = (s.inode j).dev
      ∧ (update s.inode u.slot new j).inum = (s.inode j).inum
      ∧ (update s.inode u.slot new j).ref = (s.inode j).ref := by
    intro j
    by_cases hj : j = u.slot
    · subst hj
      rw [hself]
      exact hsame
    · rw [hne hj]
      exact ⟨rfl, rfl, rfl⟩
  refine ⟨hfs, ?_, ?_, ?_, ?_, ?_, ?_, ?_⟩ <;> dsimp only
  · intro i j hi hj hdev hinum
    simp only [hslot] at hi hj hdev hinum
    exact h.one hi hj hdev hinum
  · intro j
    rw [(hslot j).2.2, h.count j, slots_update,
      show Handle.slot (.uses ⟨st, u.slot, u.inum⟩) = slots s.handle p by
        simp [slots, hp, Handle.slot],
      update_eq_self]
  · intro q v hq
    simp only [hslot]
    rcases uses_update hq with ⟨-, he⟩ | ⟨-, hq⟩
    · cases he
      exact ⟨(h.ident hp).1, (h.ident hp).2⟩
    · exact h.ident hq
  · intro q v hq hv
    rcases uses_update hq with ⟨-, he⟩ | ⟨hqp, hq⟩
    · cases he
      rw [hself]
      exact hlock hv
    · have hvs : v.slot ≠ u.slot := fun he => by simp [halone q v hqp hq he] at hv
      rw [hne hvs]
      exact h.lock hq hv
  · intro q r v w hq hr hvw hv hw
    rcases uses_update hq with ⟨hqp, he⟩ | ⟨hqp, hq⟩ <;>
      rcases uses_update hr with ⟨hrp, he'⟩ | ⟨hrp, hr⟩
    · exact hqp.trans hrp.symm
    · cases he
      simp [halone r w hrp hr hvw.symm] at hw
    · cases he'
      simp [halone q v hqp hq hvw] at hv
    · exact h.alone hq hr hvw hv hw
  · intro q v hq
    rcases uses_update hq with ⟨-, he⟩ | ⟨hqp, hq⟩
    · cases he
      rw [hself]
      exact hstage
    · by_cases hvs : v.slot = u.slot
      · have hfree := halone q v hqp hq hvs
        cases hst : v.stage <;> rw [hst] at hfree <;> trivial
      · rw [hne hvs]
        exact h.stage hq
  · intro j hj hvalid
    by_cases hju : j = u.slot
    · subst hju
      rw [hself] at hvalid ⊢
      rw [hsame.2.1, (h.ident hp).2]
      exact hcopy hvalid
    · rw [hne hju] at hj hvalid ⊢
      have hn := hrest _ fun he => hju (h.only hp hj he)
      rw [hn.1, hn.2]
      exact h.copies hj hvalid

/-- The same when nothing on the disk changes. -/
theorem Good.advance (h : Good sb s) (hp : s.handle p = .uses u)
    (halone : ∀ q v, q ≠ p → s.handle q = .uses v → v.slot = u.slot → v.stage.locks = false)
    (new : Inode) (hsame : new.dev = (s.inode u.slot).dev ∧ new.inum = (s.inode u.slot).inum
      ∧ new.ref = (s.inode u.slot).ref)
    (hlock : st.locks = true → new.locked = true) (hstage : StageOk new st)
    (hcopy : new.valid = true →
      new.copy = s.fs.disk u.inum ∧ new.minor = s.minor u.inum ∧ new.copy.kind ≠ .free) :
    Steps sb s ((s.setInode u.slot new).setHandle p (.uses ⟨st, u.slot, u.inum⟩)) :=
  h.restage hp halone new hsame hlock hstage h.formatted (fun _ _ => ⟨rfl, rfl⟩) hcopy

-- ======== references

/-- A slot gets one more reference. -/
theorem Good.join (h : Good sb s) (hq : (s.handle q).slot = none) (hdev : (s.inode i).dev = rootDev)
    (honly : ∀ j, 0 < (s.inode j).ref → (s.inode j).inum = (s.inode i).inum → j = i)
    (hvalid : (s.inode i).ref = 0 → (s.inode i).valid = false) :
    Good sb ((s.setInode i { s.inode i with ref := (s.inode i).ref + 1 }).setHandle q
      (.uses ⟨.held, i, (s.inode i).inum⟩)) := by
  generalize hnew : { s.inode i with ref := (s.inode i).ref + 1 } = new
  have hself : update s.inode i new i = new := update_self ..
  have hne : ∀ {j}, j ≠ i → update s.inode i new j = s.inode j := fun hj =>
    update_of_ne hj _ _
  -- all of a slot but its count is as before
  have hslot : ∀ j, (update s.inode i new j).dev = (s.inode j).dev
      ∧ (update s.inode i new j).inum = (s.inode j).inum
      ∧ (update s.inode i new j).locked = (s.inode j).locked
      ∧ (update s.inode i new j).valid = (s.inode j).valid
      ∧ (update s.inode i new j).copy = (s.inode j).copy
      ∧ (update s.inode i new j).minor = (s.inode j).minor := by
    intro j
    by_cases hj : j = i
    · subst hj
      rw [hself, ← hnew]
      exact ⟨rfl, rfl, rfl, rfl, rfl, rfl⟩
    · rw [hne hj]
      exact ⟨rfl, rfl, rfl, rfl, rfl, rfl⟩
  refine ⟨h.formatted, ?_, ?_, ?_, ?_, ?_, ?_, ?_⟩ <;>
    dsimp only [Icache.setHandle, Icache.setInode]
  · intro j k hj hk hjk hinum
    simp only [hslot] at hjk hinum
    by_cases hji : j = i <;> by_cases hki : k = i
    · rw [hji, hki]
    · rw [hne hki] at hk
      subst hji
      exact (honly k hk hinum.symm).symm
    · rw [hne hji] at hj
      subst hki
      exact honly j hj hinum
    · rw [hne hji] at hj
      rw [hne hki] at hk
      exact h.one hj hk hjk hinum
  · intro j
    have hfill := refs_fill (show slots s.handle q = none from hq) i j
    rw [slots_update]
    refine Eq.trans ?_ hfill.symm
    rw [← h.count j]
    by_cases hj : j = i
    · subst hj
      rw [hself, ← hnew, if_pos rfl]
    · rw [hne hj, if_neg (Ne.symm hj)]
      rfl
  · intro r v hr
    simp only [hslot]
    rcases uses_update hr with ⟨-, he⟩ | ⟨-, hr⟩
    · cases he
      exact ⟨hdev, rfl⟩
    · exact h.ident hr
  · intro r v hr hv
    simp only [hslot]
    rcases uses_update hr with ⟨-, he⟩ | ⟨-, hr⟩
    · cases he
      cases hv
    · exact h.lock hr hv
  · intro r r' v w hr hr' hvw hv hw
    rcases uses_update hr with ⟨-, he⟩ | ⟨-, hr⟩
    · cases he
      cases hv
    rcases uses_update hr' with ⟨-, he⟩ | ⟨-, hr'⟩
    · cases he
      cases hw
    · exact h.alone hr hr' hvw hv hw
  · intro r v hr
    rcases uses_update hr with ⟨-, he⟩ | ⟨-, hr⟩
    · cases he
      trivial
    · have hok := h.stage hr
      unfold StageOk at hok ⊢
      simp only [hslot]
      exact hok
  · intro j hj hv
    simp only [hslot] at hv ⊢
    by_cases hji : j = i
    · subst hji
      refine h.copies (Nat.pos_of_ne_zero fun h0 => ?_) hv
      rw [hvalid h0] at hv
      cases hv
    · rw [hne hji] at hj
      exact h.copies hj hv

omit [DecidableEq P] in
/-- A slot without references is made ready for another inode. -/
theorem Good.vacate (h : Good sb s) (hi : (s.inode i).ref = 0) (n : Nat) :
    Good sb (s.setInode i { s.inode i with dev := rootDev, inum := n, valid := false }) := by
  have hnobody : ∀ {q u}, s.handle q = .uses u → u.slot ≠ i := by
    rintro q u hq rfl
    exact absurd hi (h.ref_pos hq).ne'
  generalize hnew : { s.inode i with dev := rootDev, inum := n, valid := false } = new
  have hheld : ∀ {q u}, s.handle q = .uses u →
      update s.inode i new u.slot = s.inode u.slot := fun hq =>
    update_of_ne (hnobody hq) _ _
  have href : ∀ j, (update s.inode i new j).ref = (s.inode j).ref := by
    intro j
    rw [update_apply]
    split
    · next hj => rw [hj, ← hnew]
    · rfl
  have hcounted : ∀ {j}, 0 < (update s.inode i new j).ref →
      update s.inode i new j = s.inode j := by
    intro j hj
    refine update_of_ne ?_ _ _
    rintro rfl
    rw [href, hi] at hj
    cases hj
  refine ⟨h.formatted, ?_, ?_, ?_, ?_, h.alone, ?_, ?_⟩ <;> dsimp only [Icache.setInode]
  · intro j k hj hk hdev hinum
    rw [hcounted hj, hcounted hk] at hdev hinum
    rw [href] at hj hk
    exact h.one hj hk hdev hinum
  · intro j
    rw [href, h.count]
  · intro q u hq
    rw [hheld hq]
    exact h.ident hq
  · intro q u hq hu
    rw [hheld hq]
    exact h.lock hq hu
  · intro q u hq
    rw [hheld hq]
    exact h.stage hq
  · intro j hj hv
    rw [hcounted hj] at hv ⊢
    rw [href] at hj
    exact h.copies hj hv

/-- A reference is given back. -/
theorem Good.leave (h : Good sb s) (hp : s.handle p = .uses u) :
    Good sb ((s.setInode u.slot { s.inode u.slot with ref := (s.inode u.slot).ref - 1 }).setHandle p
      .idle) := by
  generalize hnew : { s.inode u.slot with ref := (s.inode u.slot).ref - 1 } = new
  have hslot : ∀ j, (update s.inode u.slot new j).dev = (s.inode j).dev
      ∧ (update s.inode u.slot new j).inum = (s.inode j).inum
      ∧ (update s.inode u.slot new j).locked = (s.inode j).locked
      ∧ (update s.inode u.slot new j).valid = (s.inode j).valid
      ∧ (update s.inode u.slot new j).copy = (s.inode j).copy
      ∧ (update s.inode u.slot new j).minor = (s.inode j).minor
      ∧ (update s.inode u.slot new j).ref
        = (s.inode j).ref - if u.slot = j then 1 else 0 := by
    intro j
    rw [update_apply]
    split
    · next hj =>
      rw [hj, ← hnew, if_pos rfl]
      exact ⟨rfl, rfl, rfl, rfl, rfl, rfl, rfl⟩
    · next hj =>
      rw [if_neg (Ne.symm hj)]
      exact ⟨rfl, rfl, rfl, rfl, rfl, rfl, rfl⟩
  have hold : ∀ {q v}, update s.handle p .idle q = .uses v → s.handle q = .uses v := by
    intro q v hq
    rcases uses_update hq with ⟨-, he⟩ | ⟨-, hq⟩
    · cases he
    · exact hq
  refine ⟨h.formatted, ?_, ?_, ?_, ?_, ?_, ?_, ?_⟩ <;>
    dsimp only [Icache.setHandle, Icache.setInode]
  · intro j k hj hk hdev hinum
    simp only [hslot] at hj hk hdev hinum
    exact h.one (Nat.lt_of_lt_of_le hj (Nat.sub_le ..)) (Nat.lt_of_lt_of_le hk (Nat.sub_le ..))
      hdev hinum
  · intro j
    have hclear := refs_clear (show slots s.handle p = some u.slot by
      simp [slots, hp, Handle.slot]) j
    rw [slots_update, (hslot j).2.2.2.2.2.2, h.count j]
    exact Nat.sub_eq_of_eq_add hclear.symm
  · intro q v hq
    simp only [hslot]
    exact h.ident (hold hq)
  · intro q v hq hv
    simp only [hslot]
    exact h.lock (hold hq) hv
  · intro q r v w hq hr
    exact h.alone (hold hq) (hold hr)
  · intro q v hq
    have hok := h.stage (hold hq)
    unfold StageOk at hok ⊢
    simp only [hslot]
    exact hok
  · intro j hj hv
    simp only [hslot] at hj hv ⊢
    exact h.copies (Nat.lt_of_lt_of_le hj (Nat.sub_le ..)) hv

-- ======== steps

omit [Fintype P] [DecidableEq P] in
/-- The loop of `iget` finds a slot of the inode, or there is none and it
has an empty slot if it has any. -/
theorem igetLoop_spec (s : Icache P) (n : Nat) (l : List (Fin ninode))
    (empty : Option (Fin ninode)) (hempty : ∀ i, empty = some i → (s.inode i).ref = 0) :
    match s.igetLoop n l empty with
    | .inl i => 0 < (s.inode i).ref ∧ (s.inode i).dev = rootDev ∧ (s.inode i).inum = n
    | .inr e =>
      (∀ i ∈ l, ¬ (0 < (s.inode i).ref ∧ (s.inode i).dev = rootDev ∧ (s.inode i).inum = n))
        ∧ ∀ i, e = some i → (s.inode i).ref = 0 := by
  induction l generalizing empty with
  | nil => exact ⟨nofun, hempty⟩
  | cons i is ih =>
    unfold igetLoop
    by_cases hit : 0 < (s.inode i).ref ∧ (s.inode i).dev = rootDev ∧ (s.inode i).inum = n
    · rw [if_pos hit]
      exact hit
    · rw [if_neg hit]
      have hnext : ∀ j, (if empty = none ∧ (s.inode i).ref = 0 then some i else empty) = some j →
          (s.inode j).ref = 0 := by
        intro j hj
        split at hj
        · next hi =>
          cases hj
          exact hi.2
        · exact hempty j hj
      have hrest := ih _ hnext
      revert hrest
      cases s.igetLoop n is (if empty = none ∧ (s.inode i).ref = 0 then some i else empty) with
      | inl j => exact id
      | inr e =>
        rintro ⟨hnone, he⟩
        exact ⟨List.forall_mem_cons.2 ⟨hit, hnone⟩, he⟩

theorem iget_spec (h : Good sb s) (hp : (s.handle p).slot = none) (hs : s.iget p n = some t) :
    Steps sb s t := by
  have hloop := igetLoop_spec s n (List.finRange ninode) none nofun
  unfold Icache.iget at hs
  split at hs
  · next i hi =>
    cases hs
    rw [hi] at hloop
    obtain ⟨href, hdev, rfl⟩ := hloop
    refine ⟨h.join hp hdev (fun j hj hn => ?_) fun h0 => absurd h0 href.ne', .update rfl ⟨rfl, rfl⟩⟩
    exact h.one hj href ((h.dev hj).trans hdev.symm) hn
  · cases hs
  · next i hi =>
    cases hs
    rw [hi] at hloop
    obtain ⟨hnone, hempty⟩ := hloop
    have href := hempty i rfl
    refine ⟨?_, fun j hj => ?_⟩
    · -- the slot is made ready, and then joined
      have hvacant := h.vacate href n
      generalize hv : s.setInode i { s.inode i with dev := rootDev, inum := n, valid := false } = v
        at hvacant
      have hself : v.inode i = { s.inode i with dev := rootDev, inum := n, valid := false } := by
        rw [← hv]
        exact update_self ..
      have hother : ∀ j, j ≠ i → v.inode j = s.inode j := fun j hj => by
        rw [← hv]
        exact update_of_ne hj _ _
      have hjoin := hvacant.join (q := p) (i := i) (by rw [← hv]; exact hp) (by rw [hself])
        (fun j hj hn => ?_) fun _ => by rw [hself]
      · rw [hself, href, ← hv] at hjoin
        simpa [Icache.setInode, Icache.setHandle] using hjoin
      · by_contra hji
        rw [hother j hji] at hj hn
        rw [hself] at hn
        exact hnone j (List.mem_finRange j) ⟨hj, h.dev hj, hn⟩
    · by_cases hji : j = i
      · rw [hji]
        exact href
      · refine absurd ?_ hj
        dsimp only [Icache.setHandle, Icache.setInode]
        rw [update_of_ne hji]

theorem idup_spec (h : Good sb s) (hs : s.idup p q = some t) : Steps sb s t := by
  unfold Icache.idup at hs
  split at hs
  · next i n hp hq =>
    cases hs
    obtain ⟨hdev, hinum⟩ := h.ident hp
    have href := h.ref_pos hp
    have hjoin := h.join (q := q) (i := i) (by rw [hq]; rfl) hdev
      (fun j hj hn => h.only hp hj (hn.trans hinum)) fun h0 => absurd h0 href.ne'
    rw [hinum] at hjoin
    exact ⟨hjoin, .update rfl ⟨rfl, rfl⟩⟩
  · cases hs

/-- The inode that is free on the disk is in no valid slot that is referred
to. -/
theorem ialloc_spec (h : Good sb s) {kind : Kind} (hs : s.ialloc sb p n kind = some t) :
    Steps sb s t := by
  unfold Icache.ialloc at hs
  split at hs
  · next hp =>
    split at hs
    · next hfree =>
      cases hs
      refine ⟨?_, .refl rfl⟩
      have hold : ∀ {q v}, update s.handle p (.allocating n) q = .uses v →
          s.handle q = .uses v := by
        intro q v hq
        rcases uses_update hq with ⟨-, he⟩ | ⟨-, hq⟩
        · cases he
        · exact hq
      refine ⟨h.formatted.fresh hfree.2.2.1 kind, h.one, fun i => ?_, fun hq => h.ident (hold hq),
        fun hq => h.lock (hold hq), fun hq hr => h.alone (hold hq) (hold hr),
        fun hq => h.stage (hold hq), fun {i} hi hv => ?_⟩
      · have hnone : (Handle.allocating n).slot = slots s.handle p := by
          simp [slots, hp, Handle.slot]
        show (s.inode i).ref = refs (slots (update s.handle p (.allocating n))) i
        rw [slots_update, hnone, update_eq_self]
        exact h.count i
      · have hcopy := h.copies hi hv
        have hne : (s.inode i).inum ≠ n := by
          rintro rfl
          rw [hcopy.1] at hcopy
          exact hcopy.2.2 hfree.2.2.1
        dsimp only [Icache.setHandle]
        rw [update_of_ne hne, update_of_ne hne]
        exact hcopy
    · cases hs
  · cases hs

theorem ilock_spec (h : Good sb s) (hs : s.ilock p = some t) : Steps sb s t := by
  unfold Icache.ilock at hs
  split at hs
  · next i n hp =>
    split at hs
    · cases hs
    · next hfree =>
      cases hs
      push Not at hfree
      exact h.advance hp (h.unlocked (Bool.eq_false_of_not_eq_true hfree.2)) _ ⟨rfl, rfl, rfl⟩
        (fun _ => rfl) trivial (h.copy hp)
  · cases hs

theorem load_spec (h : Good sb s) (hs : s.load p = some t) : Steps sb s t := by
  unfold Icache.load at hs
  split at hs
  · next i n hp =>
    have hlocked := h.lock hp rfl
    have hinum := (h.ident hp).2
    split at hs
    · next hv =>
      cases hs
      have hnext : Steps sb s ((s.setInode i (s.inode i)).setHandle p (.uses ⟨.locked, i, n⟩)) :=
        h.advance hp (h.sole hp rfl) (s.inode i) ⟨rfl, rfl, rfl⟩ (fun _ => hlocked) hv (h.copy hp)
      simpa [Icache.setInode] using hnext
    · dsimp only at hs
      split at hs
      · cases hs
      · next hk =>
        cases hs
        rw [hinum] at hk ⊢
        exact h.advance hp (h.sole hp rfl) _ ⟨rfl, rfl.trans hinum.symm, rfl⟩ (fun _ => hlocked) rfl
          fun _ => ⟨rfl, rfl, hk⟩
  · cases hs

theorem iunlock_spec (h : Good sb s) (hs : s.iunlock p = some t) : Steps sb s t := by
  unfold Icache.iunlock at hs
  split at hs
  · next i n hp =>
    split at hs
    · cases hs
    · cases hs
      exact h.advance hp (h.sole hp rfl) _ ⟨rfl, rfl, rfl⟩ nofun trivial (h.copy hp)
  · cases hs

-- ======== content

omit [DecidableEq P] in
/-- The copy a holder works on is the inode on the disk, so an operation on
it is one of the file system. -/
theorem Good.worked (h : Good sb s) (hp : s.handle p = .uses u) (hv : (s.inode u.slot).valid = true)
    (hr : op.apply sb (s.fs.setMem u.inum (s.inode u.slot).copy) devsw = .ok fs) :
    Worked sb op s.fs fs := by
  have hmem : s.fs.setMem u.inum (s.inode u.slot).copy = s.fs := by
    rw [(h.copy hp hv).1, ← h.formatted.synced, FsState.setMem, update_eq_self]
  rw [hmem] at hr
  exact op_worked h.formatted hr

/-- What an operation leaves alone is as it was on the disk, too. -/
theorem disk_other {fs' : FsState} (h : Formatted sb fs) (hw : Worked sb op fs fs')
    (hop : op.inum = some n) {m : Nat} (hm : m ≠ n) : fs'.disk m = fs.disk m := by
  rw [← hw.formatted.synced, ← h.synced]
  exact hw.others n m hop hm

/-- An operation that does not free the inode, with `minor` set before; it
reaches the disk if `iupdate` is called. -/
theorem onCopy_spec (h : Good sb s) (hp : s.handle p = .uses ⟨.locked, i, n⟩)
    (hs : (s.setInode i { s.inode i with minor := minor }).onCopy sb devsw i op wrote = some t)
    (hop : op.inum = some n) (hput : op ≠ .iput n)
    (hminor : minor = (s.inode i).minor ∨ ∀ ip, wrote ip = true) : Steps sb s t := by
  have hv : (s.inode i).valid = true := h.stage hp
  have hinum : (s.inode i).inum = n := (h.ident hp).2
  have hcopy := h.copy hp hv
  dsimp only at hcopy
  unfold Icache.onCopy at hs
  simp only [Icache.setInode, update_self, update_idem, hinum] at hs
  split at hs
  · cases hs
  · next fs hr =>
    cases hs
    have hw := h.worked hp hv hr
    have hkind := hw.kind n hop hput
    have hsame : update s.handle p (.uses ⟨.locked, i, n⟩) = s.handle := by
      rw [← hp, update_eq_self]
    have hnext : Steps sb s
        { inode := update s.inode i { s.inode i with copy := fs.mem n, minor := minor }
          fs := fs
          minor := if wrote (fs.mem n) then update s.minor n minor else s.minor
          handle := update s.handle p (.uses ⟨.locked, i, n⟩) } := by
      refine h.restage hp (h.sole hp rfl) _ ⟨rfl, rfl, rfl⟩ (fun _ => h.lock hp rfl) hv
        hw.formatted (fun m hm => ⟨disk_other h.formatted hw hop hm, ?_⟩) fun _ => ⟨?_, ?_, ?_⟩
      · split
        · exact update_of_ne hm _ _
        · rfl
      · rw [← hw.formatted.synced]
      · dsimp only
        split
        · exact (update_self n minor s.minor).symm
        · next hno =>
          rcases hminor with rfl | hall
          · exact hcopy.2.1
          · exact absurd (hall _) hno
      · dsimp only
        rw [hkind, h.formatted.synced, ← hcopy.1]
        exact hcopy.2.2
    rw [hsame, ← hinum] at hnext
    rw [← hinum]
    exact hnext

/-- The same with `minor` left alone. -/
theorem onCopy_plain (h : Good sb s) (hp : s.handle p = .uses ⟨.locked, i, n⟩)
    (hs : s.onCopy sb devsw i op wrote = some t)
    (hop : op.inum = some n) (hput : op ≠ .iput n) : Steps sb s t := by
  have hsame : s.setInode i { s.inode i with minor := (s.inode i).minor } = s := by
    simp [Icache.setInode]
  rw [← hsame] at hs
  exact onCopy_spec h hp hs hop hput (Or.inl rfl)

theorem readi_ok (h : Good sb s) {m : Word}
    (hs : s.readi sb devsw p off m = some t) : Steps sb s t := by
  unfold Icache.readi at hs
  split at hs
  · next i n hp => exact onCopy_plain h hp hs (congrArg some (h.ident hp).2) nofun
  · cases hs

theorem writei_ok (h : Good sb s) {src : Buf}
    (hs : s.writei sb devsw p off src = some t) : Steps sb s t := by
  unfold Icache.writei at hs
  split at hs
  · next i n hp => exact onCopy_plain h hp hs (congrArg some (h.ident hp).2) nofun
  · cases hs

theorem fields_ok (h : Good sb s) {major nlink : Int}
    (hs : s.fields sb devsw p major minor nlink = some t) : Steps sb s t := by
  unfold Icache.fields at hs
  split at hs
  · next i n hp =>
    exact onCopy_spec h hp hs (congrArg some (h.ident hp).2) nofun (Or.inr fun _ => rfl)
  · cases hs

-- ======== iput

theorem putLock_spec (h : Good sb s) (hs : s.putLock p = some t) : Steps sb s t := by
  unfold Icache.putLock at hs
  split at hs
  · next i n hp =>
    split at hs
    · cases hs
    · next hfree =>
      have hnone := h.unlocked (p := p) (Bool.eq_false_of_not_eq_true hfree)
      split at hs
      · next hlast =>
        cases hs
        exact h.advance hp hnone _ ⟨rfl, rfl, rfl⟩ (fun _ => rfl) hlast (h.copy hp)
      · cases hs
        have hnext : Steps sb s
            ((s.setInode i (s.inode i)).setHandle p (.uses ⟨.dropping, i, n⟩)) :=
          h.advance hp hnone (s.inode i) ⟨rfl, rfl, rfl⟩ nofun trivial (h.copy hp)
        simpa [Icache.setInode] using hnext
  · cases hs

theorem putTest_spec (h : Good sb s) (hs : s.putTest p = some t) : Steps sb s t := by
  unfold Icache.putTest at hs
  split at hs
  · next i n hp =>
    split at hs
    · cases hs
      have hnext : Steps sb s ((s.setInode i (s.inode i)).setHandle p (.uses ⟨.freeing, i, n⟩)) :=
        h.advance hp (h.sole hp rfl) (s.inode i) ⟨rfl, rfl, rfl⟩ (fun _ => h.lock hp rfl)
          (h.stage hp) (h.copy hp)
      simpa [Icache.setInode] using hnext
    · cases hs
      exact h.advance hp (h.sole hp rfl) _ ⟨rfl, rfl, rfl⟩ nofun trivial (h.copy hp)
  · cases hs

/-- The slot is not valid behind the truncation, whoever has references to
it by then. -/
theorem putFree_spec (h : Good sb s) (hs : s.putFree sb devsw p = some t) : Steps sb s t := by
  unfold Icache.putFree at hs
  split at hs
  · next i n hp =>
    have hinum : (s.inode i).inum = n := (h.ident hp).2
    unfold Icache.onCopy at hs
    simp only [hinum] at hs
    split at hs
    · cases hs
    · next fs hr =>
      cases hs
      have hw := h.worked hp (h.stage hp).1 hr
      have hnext : Steps sb s
          { inode := update s.inode i
              { s.inode i with copy := fs.mem n, valid := false, locked := false }
            fs := fs
            minor := update s.minor n (s.inode i).minor
            handle := update s.handle p (.uses ⟨.dropping, i, n⟩) } :=
        h.restage hp (h.sole hp rfl) _ ⟨rfl, rfl, rfl⟩ nofun trivial hw.formatted
          (fun m hm => ⟨disk_other h.formatted hw rfl hm, update_of_ne hm _ _⟩) nofun
      simpa [Icache.setInode, Icache.setHandle, hinum] using hnext
  · cases hs

theorem drop_spec (h : Good sb s) (hs : s.drop p = some t) : Steps sb s t := by
  unfold Icache.drop at hs
  split at hs
  · next i n hp =>
    cases hs
    exact ⟨h.leave hp, .update rfl ⟨rfl, rfl⟩⟩
  · cases hs

-- ======== all steps

theorem step_spec (h : Good sb s) {e : IcacheEvent P}
    (hs : icacheStep sb devsw e s = some t) : Steps sb s t := by
  cases e with
  | iget p n =>
    dsimp only [icacheStep] at hs
    split at hs
    · next hp => exact iget_spec h (by rw [hp]; rfl) hs
    · next hp => exact iget_spec h (by rw [hp]; rfl) hs
    · cases hs
  | idup p q => exact idup_spec h hs
  | ialloc p n kind => exact ialloc_spec h hs
  | ilock p => exact ilock_spec h hs
  | load p => exact load_spec h hs
  | iunlock p => exact iunlock_spec h hs
  | readi p off n => exact readi_ok h hs
  | writei p off src => exact writei_ok h hs
  | fields p major minor nlink => exact fields_ok h hs
  | putLock p => exact putLock_spec h hs
  | putTest p => exact putTest_spec h hs
  | putFree p => exact putFree_spec h hs
  | drop p => exact drop_spec h hs

/-- The start: nothing is cached, and no file has holes. -/
def Started (sb : Superblock) (s : Icache P) : Prop :=
  ∃ fs minor, Formatted sb fs ∧ s = emptyCache fs minor

omit [DecidableEq P] in
theorem started_good (h : Started sb s) : Good sb s := by
  obtain ⟨fs, minor, hfs, rfl⟩ := h
  refine ⟨hfs, fun hi => absurd hi (Nat.lt_irrefl 0), fun i => ?_, nofun, nofun, nofun, nofun,
    fun hi => absurd hi (Nat.lt_irrefl 0)⟩
  refine Eq.symm (refs_eq_zero_iff.2 fun p hp => ?_)
  cases hp

theorem reach_good (h : Reach (icacheStep sb devsw) (Started sb) s) : Good sb s :=
  h.invariant (fun _ => started_good) fun _ _ _ hs hstep => (step_spec hs hstep).1

/-- What the cache owes its users. -/
structure Coherent (s : Icache P) : Prop where
  one : ∀ i j, 0 < (s.inode i).ref → 0 < (s.inode j).ref →
    (s.inode i).dev = (s.inode j).dev → (s.inode i).inum = (s.inode j).inum → i = j
  count : ∀ i, (s.inode i).ref = refs (slots s.handle) i
  ident : ∀ p u, s.handle p = .uses u →
    (s.inode u.slot).dev = rootDev ∧ (s.inode u.slot).inum = u.inum
  copies : ∀ i, 0 < (s.inode i).ref → (s.inode i).locked = false → (s.inode i).valid = true →
    (s.inode i).copy = s.fs.disk (s.inode i).inum
      ∧ (s.inode i).minor = s.minor (s.inode i).inum

end Icache

end Xv6Sume32.Fs
