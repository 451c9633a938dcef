/-
Coherence of the buffer cache.

# The invariant

`Good` has, beside the list of buffers, what the parts of the cache owe
each other: a buffer's count is the number of its callers, a caller's
buffer has the block it asked for, only one caller at a time is past a
buffer's lock, and for the flags and the disk queue what belongs to the
place each caller is at (`StageOk`). The data are right in three places: a
block's last data are on the disk unless its buffer is dirty, and in its
buffer unless that is not valid, or has been stored into by a caller who
has yet to write.

# Shape of the argument

All steps but those of `bget` and `brelse` move one caller on with its own
buffer, while no other caller is past that buffer's lock: `Good.restage`
is the one rule for them. `bget` either adds a caller to a buffer or turns
an unused clean buffer into another block's; what the old block had is on
the disk. `brelse` takes a caller away and moves the buffer to the front.
-/
import Xv6Sume32.Fs.Bio
import Xv6Sume32.Lib.Outcome

namespace Xv6Sume32.Bio

open Lib
open Function (update update_apply update_eq_self update_of_ne update_self)

variable {list : Dll (Fin nbuf)} {v : Option Use} {st : Stage} {queue : List (Fin nbuf)}

-- ======== the invariant

/-- The caller is past the buffer's lock. -/
def Stage.locks : Stage → Bool
  | .waiting | .releasing => false
  | .locked | .reading | .holding _ | .writing => true

/-- What the flags of a buffer and the disk queue say of a caller's
place. -/
def StageOk (valid dirty : Bool) (queued : Prop) : Stage → Prop
  | .waiting | .releasing => True
  | .locked => ¬ queued
  | .reading => dirty = false ∧ (valid = true ↔ ¬ queued)
  | .holding _ => valid = true ∧ ¬ queued
  | .writing => valid = true ∧ (dirty = true ↔ queued)

/-- In `iderw`. -/
def Stage.busy : Stage → Bool
  | .reading | .writing => true
  | _ => false

variable {P D : Type}

/-- The buffer of a caller. -/
def users (use : P → Option Use) (p : P) : Option (Fin nbuf) := (use p).map Use.buf

structure Good [Fintype P] (s : Bcache P D) : Prop where
  list : ∃ l, Ringed s.list l ∧ ∀ b, b ∈ l
  one : ∀ {b c}, (s.buf b).dev = rootdev → (s.buf c).dev = rootdev →
    (s.buf b).blockno = (s.buf c).blockno → b = c
  refcnt : ∀ b, (s.buf b).refcnt = refs (users s.use) b
  block : ∀ {p u}, s.use p = some u →
    (s.buf u.buf).dev = rootdev ∧ (s.buf u.buf).blockno = u.block
  lock : ∀ {p u}, s.use p = some u → u.stage.locks = true → (s.buf u.buf).locked = true
  alone : ∀ {p q u v}, s.use p = some u → s.use q = some v → u.buf = v.buf →
    u.stage.locks = true → v.stage.locks = true → p = q
  flags : ∀ {p u}, s.use p = some u →
    StageOk (s.buf u.buf).valid (s.buf u.buf).dirty (u.buf ∈ s.idequeue) u.stage
  nodup : s.idequeue.Nodup
  queued : ∀ {b}, b ∈ s.idequeue → ∃ p u, s.use p = some u ∧ u.buf = b ∧ u.stage.busy = true
  clean : ∀ {b}, (s.buf b).dirty = true → (s.buf b).valid = true
  stored : ∀ {b}, (s.buf b).dev = rootdev → (s.buf b).dirty = false →
    s.disk (s.buf b).blockno = s.last (s.buf b).blockno
  data : ∀ {b}, (s.buf b).dev = rootdev → (s.buf b).valid = true →
    (s.buf b).data = s.last (s.buf b).blockno
      ∨ ∃ p u, s.use p = some u ∧ u.buf = b ∧ u.stage = .holding true
  uncached : ∀ {n}, (∀ b, (s.buf b).dev = rootdev → (s.buf b).blockno ≠ n) →
    s.disk n = s.last n

variable [Fintype P] {s t : Bcache P D} {p : P} {u : Use} {b : Fin nbuf} {n : Nat}

-- ======== one caller

/-- The list does not matter to the rest. -/
theorem Good.relist (h : Good s) (hl : ∃ l, Ringed list l ∧ ∀ b, b ∈ l) :
    Good { s with list := list } :=
  ⟨hl, h.one, h.refcnt, h.block, h.lock, h.alone, h.flags, h.nodup, h.queued, h.clean, h.stored,
    h.data, h.uncached⟩

/-- A clean buffer without callers is turned into that of a block which has
none. -/
theorem Good.rename (h : Good s) (hb : (s.buf b).refcnt = 0) (hdirty : (s.buf b).dirty = false)
    (hn : ∀ c, (s.buf c).dev = rootdev → (s.buf c).blockno ≠ n) :
    Good (s.setBuf b { s.buf b with
      dev := rootdev, blockno := n, valid := false, dirty := false }) := by
  have hnobody : ∀ {q u}, s.use q = some u → u.buf ≠ b := by
    intro q u hq he
    rw [h.refcnt b] at hb
    exact refs_eq_zero_iff.1 hb q (by unfold users; rw [hq]; exact congrArg some he)
  have hbuf : ∀ {q u}, s.use q = some u → update s.buf b { s.buf b with
      dev := rootdev, blockno := n, valid := false, dirty := false } u.buf = s.buf u.buf :=
    fun hq => update_of_ne (hnobody hq) _ _
  refine ⟨h.list, ?_, ?_, ?_, ?_, h.alone, ?_, h.nodup, h.queued, ?_, ?_, ?_, ?_⟩ <;>
    dsimp only [Bcache.setBuf]
  · intro c d hc hd hcd
    simp only [update_apply] at hc hd hcd
    split at hcd <;> split at hcd
    · next hcb hdb => rw [hcb, hdb]
    · next hcb hdb =>
      rw [if_neg hdb] at hd
      exact absurd hcd.symm (hn d hd)
    · next hcb hdb =>
      rw [if_neg hcb] at hc
      exact absurd hcd (hn c hc)
    · next hcb hdb =>
      rw [if_neg hcb] at hc
      rw [if_neg hdb] at hd
      exact h.one hc hd hcd
  · intro c
    rw [← h.refcnt c, update_apply]
    split
    · next hc => rw [hc]
    · rfl
  · intro q u hq
    rw [hbuf hq]
    exact h.block hq
  · intro q u hq hu
    rw [hbuf hq]
    exact h.lock hq hu
  · intro q u hq
    rw [hbuf hq]
    exact h.flags hq
  · intro c hc
    rw [update_apply] at hc ⊢
    split at hc
    · cases hc
    · next hcb =>
      rw [if_neg hcb]
      exact h.clean hc
  · intro c hc hd
    by_cases hcb : c = b
    · subst hcb
      rw [update_self]
      exact h.uncached hn
    · rw [update_of_ne hcb] at hc hd ⊢
      exact h.stored hc hd
  · intro c hc hv
    by_cases hcb : c = b
    · subst hcb
      rw [update_self] at hv
      cases hv
    · rw [update_of_ne hcb] at hc hv ⊢
      exact h.data hc hv
  · intro m hm
    by_cases hold : (s.buf b).dev = rootdev ∧ (s.buf b).blockno = m
    · -- the block the buffer had is on the disk
      rw [← hold.2]
      exact h.stored hold.1 hdirty
    · refine h.uncached fun c hc => ?_
      by_cases hcb : c = b
      · subst hcb
        exact fun he => hold ⟨hc, he⟩
      · have := hm c
        rw [update_of_ne hcb] at this
        exact this hc

/-- Whoever is past the lock is alone there. -/
theorem Good.sole (h : Good s) (hp : s.use p = some u) (hu : u.stage.locks = true) :
    ∀ q v, q ≠ p → s.use q = some v → v.buf = u.buf → v.stage.locks = false := by
  intro q v hqp hq hv
  refine Bool.eq_false_of_not_eq_true fun hlocks => hqp ?_
  exact h.alone hq hp hv hlocks hu

/-- The block of a caller is on the disk, unless its buffer is dirty. -/
theorem Good.onDisk (h : Good s) (hp : s.use p = some u) (hd : (s.buf u.buf).dirty = false) :
    s.disk u.block = s.last u.block := by
  have := h.stored (h.block hp).1 hd
  rwa [(h.block hp).2] at this

/-- A caller alone past the lock has the last data in its buffer, unless it
has stored there. -/
theorem Good.inBuf (h : Good s) (hp : s.use p = some u)
    (halone : ∀ q v, q ≠ p → s.use q = some v → v.buf = u.buf → v.stage.locks = false)
    (hst : u.stage ≠ .holding true) (hv : (s.buf u.buf).valid = true) :
    (s.buf u.buf).data = s.last u.block := by
  rcases h.data (h.block hp).1 hv with hd | ⟨q, v, hq, hvb, hv⟩
  · rwa [(h.block hp).2] at hd
  · by_cases hqp : q = p
    · subst hqp
      rw [hp] at hq
      cases hq
      exact absurd hv hst
    · have := halone q v hqp hq hvb
      rw [hv] at this
      cases this

variable [DecidableEq P]

omit [Fintype P] in
theorem users_update {use : P → Option Use} :
    users (update use p v) = update (users use) p (v.map Use.buf) := by
  funext q
  by_cases hq : q = p
  · subst hq
    simp [users]
  · simp [users, hq]

/-- A caller goes on with its buffer while no other is past the lock. -/
theorem Good.restage (h : Good s) (hp : s.use p = some u)
    (halone : ∀ q v, q ≠ p → s.use q = some v → v.buf = u.buf → v.stage.locks = false)
    (new : Buf D) {disk last : Nat → D}
    (hsame : new.dev = (s.buf u.buf).dev ∧ new.blockno = (s.buf u.buf).blockno
      ∧ new.refcnt = (s.buf u.buf).refcnt) (hlock : st.locks = true → new.locked = true)
    (hflags : StageOk new.valid new.dirty (u.buf ∈ queue) st)
    (hnodup : queue.Nodup) (hqueue : ∀ c, c ≠ u.buf → (c ∈ queue ↔ c ∈ s.idequeue))
    (hbusy : u.buf ∈ queue → st.busy = true) (hclean : new.dirty = true → new.valid = true)
    (hrest : ∀ n, n ≠ u.block → disk n = s.disk n ∧ last n = s.last n)
    (hstored : new.dirty = false → disk u.block = last u.block)
    (hdata : new.valid = true → new.data = last u.block ∨ st = .holding true) :
    Good { s with
      buf := update s.buf u.buf new
      use := update s.use p (some ⟨st, u.buf, u.block⟩)
      idequeue := queue, disk := disk, last := last } := by
  obtain ⟨hdev, hblockno⟩ := h.block hp
  -- a caller of another buffer, or one that is not past the lock
  have huse : ∀ {q v}, update s.use p (some ⟨st, u.buf, u.block⟩) q = some v →
      (q = p ∧ v = ⟨st, u.buf, u.block⟩) ∨ (q ≠ p ∧ s.use q = some v) := by
    intro q v hq
    rw [update_apply] at hq
    split at hq
    · next he => exact Or.inl ⟨he, (Option.some.inj hq).symm⟩
    · next he => exact Or.inr ⟨he, hq⟩
  have hbuf : ∀ c, (update s.buf u.buf new c).dev = (s.buf c).dev
      ∧ (update s.buf u.buf new c).blockno = (s.buf c).blockno
      ∧ (update s.buf u.buf new c).refcnt = (s.buf c).refcnt := by
    intro c
    rw [update_apply]
    split
    · next he =>
      subst he
      exact hsame
    · exact ⟨rfl, rfl, rfl⟩
  have hself : update s.buf u.buf new u.buf = new := update_self ..
  have hne : ∀ {c}, c ≠ u.buf → update s.buf u.buf new c = s.buf c := fun hc =>
    update_of_ne hc _ _
  -- the user of another buffer is another caller
  have hother : ∀ {q v}, s.use q = some v → v.buf ≠ u.buf →
      update s.use p (some ⟨st, u.buf, u.block⟩) q = some v := by
    intro q v hq hv
    have hqp : q ≠ p := by
      rintro rfl
      rw [hp] at hq
      cases hq
      exact hv rfl
    rw [update_of_ne hqp]
    exact hq
  have hblock : ∀ {c}, (s.buf c).dev = rootdev → c ≠ u.buf → (s.buf c).blockno ≠ u.block := by
    intro c hc hne he
    exact hne (h.one hc hdev (he.trans hblockno.symm))
  refine ⟨h.list, ?_, ?_, ?_, ?_, ?_, ?_, hnodup, ?_, ?_, ?_, ?_, ?_⟩ <;> dsimp only
  · intro b c hb hc hbc
    simp only [hbuf] at hb hc hbc
    exact h.one hb hc hbc
  · intro b
    rw [(hbuf b).2.2, h.refcnt b, users_update,
      show Option.map Use.buf (some ⟨st, u.buf, u.block⟩) = users s.use p by simp [users, hp],
      update_eq_self]
  · intro q v hq
    simp only [hbuf]
    rcases huse hq with ⟨-, rfl⟩ | ⟨-, hq⟩
    · exact ⟨hdev, hblockno⟩
    · exact h.block hq
  · intro q v hq hv
    rcases huse hq with ⟨-, rfl⟩ | ⟨hqp, hq⟩
    · rw [hself]
      exact hlock hv
    · have hvb : v.buf ≠ u.buf := fun he => by simp [halone q v hqp hq he] at hv
      rw [hne hvb]
      exact h.lock hq hv
  · intro q r v w hq hr hvw hv hw
    rcases huse hq with ⟨hqp, rfl⟩ | ⟨hqp, hq⟩ <;> rcases huse hr with ⟨hrp, rfl⟩ | ⟨hrp, hr⟩
    · exact hqp.trans hrp.symm
    · simp [halone r w hrp hr hvw.symm] at hw
    · simp [halone q v hqp hq hvw] at hv
    · exact h.alone hq hr hvw hv hw
  · intro q v hq
    rcases huse hq with ⟨-, rfl⟩ | ⟨hqp, hq⟩
    · rw [hself]
      exact hflags
    · by_cases hvb : v.buf = u.buf
      · have hfree := halone q v hqp hq hvb
        cases hst : v.stage <;> rw [hst] at hfree <;> trivial
      · rw [hne hvb]
        have hok := h.flags hq
        rwa [← hqueue _ hvb] at hok
  · intro c hc
    by_cases hcu : c = u.buf
    · subst hcu
      exact ⟨p, _, update_self .., rfl, hbusy hc⟩
    · obtain ⟨q, v, hq, rfl, hv⟩ := h.queued ((hqueue c hcu).1 hc)
      exact ⟨q, v, hother hq hcu, rfl, hv⟩
  · intro c hc
    by_cases hcu : c = u.buf
    · subst hcu
      rw [hself] at hc ⊢
      exact hclean hc
    · rw [hne hcu] at hc ⊢
      exact h.clean hc
  · intro c hc hdirty
    by_cases hcu : c = u.buf
    · subst hcu
      rw [hself] at hdirty ⊢
      rw [hsame.2.1, hblockno]
      exact hstored hdirty
    · rw [hne hcu] at hc hdirty ⊢
      have hn := hrest _ (hblock hc hcu)
      rw [hn.1, hn.2]
      exact h.stored hc hdirty
  · intro c hc hvalid
    by_cases hcu : c = u.buf
    · subst hcu
      rw [hself] at hvalid ⊢
      rw [hsame.2.1, hblockno]
      rcases hdata hvalid with hd | hst
      · exact Or.inl hd
      · exact Or.inr ⟨p, _, update_self .., rfl, hst⟩
    · rw [hne hcu] at hc hvalid ⊢
      rw [(hrest _ (hblock hc hcu)).2]
      rcases h.data hc hvalid with hd | ⟨q, v, hq, rfl, hv⟩
      · exact Or.inl hd
      · exact Or.inr ⟨q, v, hother hq hcu, rfl, hv⟩
  · intro n hn
    simp only [hbuf] at hn
    have hnb : n ≠ u.block := fun he => hn u.buf hdev (hblockno.trans he.symm)
    rw [(hrest n hnb).1, (hrest n hnb).2]
    exact h.uncached hn

theorem Stage.locks_of_busy (h : st.busy = true) : st.locks = true := by
  cases st <;> first | rfl | cases h

/-- A caller comes or goes, not past the lock, and the buffer is counted
anew. -/
theorem Good.recount (h : Good s) {k : Nat}
    (hold : ∀ u, s.use p = some u → u.stage.locks = false)
    (hnew : ∀ u, v = some u → u.stage.locks = false
      ∧ (s.buf u.buf).dev = rootdev ∧ (s.buf u.buf).blockno = u.block)
    (hcount : ∀ c, (update s.buf b { s.buf b with refcnt := k } c).refcnt
      = refs (update (users s.use) p (v.map Use.buf)) c) :
    Good { s with
      buf := update s.buf b { s.buf b with refcnt := k }
      use := update s.use p v } := by
  have hbuf : ∀ c, update s.buf b { s.buf b with refcnt := k } c
      = { s.buf c with
        refcnt := (update s.buf b { s.buf b with refcnt := k } c).refcnt } := by
    intro c
    by_cases hc : c = b
    · subst hc
      rw [update_self]
    · rw [update_of_ne hc]
  have huse : ∀ {q w}, update s.use p v q = some w →
      w.stage.locks = false ∨ s.use q = some w := by
    intro q w hq
    rw [update_apply] at hq
    split at hq
    · exact Or.inl (hnew w hq).1
    · exact Or.inr hq
  have hkeep : ∀ {q w}, s.use q = some w → w.stage.locks = true →
      update s.use p v q = some w := by
    intro q w hq hw
    have hqp : q ≠ p := by
      rintro rfl
      simp [hold w hq] at hw
    rw [update_of_ne hqp]
    exact hq
  refine ⟨h.list, ?_, ?_, ?_, ?_, ?_, ?_, h.nodup, ?_, ?_, ?_, ?_, ?_⟩ <;> dsimp only
  · intro c d hc hd hcd
    rw [hbuf] at hc hd hcd
    rw [hbuf d] at hcd
    exact h.one hc hd hcd
  · intro c
    rw [hcount c, users_update]
  · intro q w hq
    rw [hbuf]
    rw [update_apply] at hq
    split at hq
    · exact (hnew w hq).2
    · exact h.block hq
  · intro q w hq hw
    rw [hbuf]
    rcases huse hq with hfree | hq
    · simp [hfree] at hw
    · exact h.lock hq hw
  · intro q r x y hq hr hxy hx hy
    rcases huse hq with hfree | hq
    · simp [hfree] at hx
    rcases huse hr with hfree | hr
    · simp [hfree] at hy
    exact h.alone hq hr hxy hx hy
  · intro q w hq
    rw [hbuf]
    rcases huse hq with hfree | hq
    · cases hst : w.stage <;> rw [hst] at hfree <;> trivial
    · exact h.flags hq
  · intro c hc
    obtain ⟨q, w, hq, hw, hbusy⟩ := h.queued hc
    exact ⟨q, w, hkeep hq (Stage.locks_of_busy hbusy), hw, hbusy⟩
  · intro c hc
    rw [hbuf] at hc ⊢
    exact h.clean hc
  · intro c hc hdirty
    rw [hbuf] at hc hdirty ⊢
    exact h.stored hc hdirty
  · intro c hc hvalid
    rw [hbuf] at hc hvalid ⊢
    rcases h.data hc hvalid with hd | ⟨q, w, hq, hw, hst⟩
    · exact Or.inl hd
    · exact Or.inr ⟨q, w, hkeep hq (by rw [hst]; rfl), hw, hst⟩
  · intro n hn
    refine h.uncached fun c hc => ?_
    have := hn c
    rw [hbuf] at this
    exact this hc

/-- A buffer is moved to the front. -/
theorem relink (b : Fin nbuf) (h : ∃ l, Ringed list l ∧ ∀ b, b ∈ l) :
    ∃ l, Ringed ((list.unlink b).push b) l ∧ ∀ b, b ∈ l := by
  obtain ⟨l, hl, hall⟩ := h
  obtain ⟨pre, post, rfl⟩ := List.append_of_mem (hall b)
  have hnot : b ∉ pre ++ post := by
    have hnodup := hl.1
    rw [List.nodup_middle] at hnodup
    exact (List.nodup_cons.1 hnodup).1
  refine ⟨b :: (pre ++ post), hl.unlink.push hnot, fun c => ?_⟩
  have := hall c
  simp only [List.mem_append, List.mem_cons] at this ⊢
  tauto

-- ======== bget

/-- A caller comes to a buffer that has the block. -/
theorem Good.join (h : Good s) (hp : s.use p = none) (hdev : (s.buf b).dev = rootdev)
    (hblock : (s.buf b).blockno = n) :
    Good ((s.setBuf b { s.buf b with refcnt := (s.buf b).refcnt + 1 }).setUse p
      (some ⟨.waiting, b, n⟩)) := by
  refine h.recount (fun u hu => ?_) (fun u hu => ?_) fun c => ?_
  · rw [hp] at hu
    cases hu
  · cases hu
    exact ⟨rfl, hdev, hblock⟩
  · have hnone : users s.use p = none := by simp [users, hp]
    rw [Option.map_some, refs_fill hnone, ← h.refcnt c, update_apply]
    by_cases hc : c = b
    · subst hc
      simp
    · simp [hc, Ne.symm hc]

/-- What stops a step without being a panic, and the one panic that is
left. -/
def Stop.allowed (x : Stop) : Prop := x = .disabled ∨ x = .noBuffers

/-- A step changes which block a buffer has only if the buffer has no
callers and is clean. -/
def Recycles (s t : Bcache P D) : Prop :=
  ∀ b, ((t.buf b).dev, (t.buf b).blockno) ≠ ((s.buf b).dev, (s.buf b).blockno) →
    (s.buf b).refcnt = 0 ∧ (s.buf b).dirty = false

/-- What every step has to end with. -/
def Sound (s : Bcache P D) (x : Except Stop (Bcache P D)) : Prop :=
  Outcome Stop.allowed (fun t => Good t ∧ Recycles s t) x

section Recycles

omit [Fintype P] [DecidableEq P]

theorem Recycles.refl (h : t.buf = s.buf) : Recycles s t := fun b hb => absurd (by rw [h]) hb

/-- One buffer changes, but not its block. -/
theorem Recycles.update {new : Buf D} (h : t.buf = update s.buf b new)
    (hnew : new.dev = (s.buf b).dev ∧ new.blockno = (s.buf b).blockno) : Recycles s t := by
  intro c hc
  refine absurd ?_ hc
  rw [h, update_apply]
  split
  · next he => rw [he, hnew.1, hnew.2]
  · rfl

end Recycles

theorem bget_spec (h : Good s) (p : P) (n : Nat) : Sound s (s.bget p n) := by
  unfold Bcache.bget
  split
  · exact Or.inl rfl
  next hp =>
  obtain ⟨l, hl, hall⟩ := h.list
  have hlen : l.length < nbuf + 1 := by
    have := List.Nodup.length_le_card hl.1
    rw [Fintype.card_fin] at this
    omega
  dsimp only
  rw [hl.walk_next hlen]
  cases hfind : l.find? fun b => decide ((s.buf b).dev = rootdev ∧ (s.buf b).blockno = n) with
  | some b =>
    have hb := List.find?_some hfind
    simp only [decide_eq_true_eq] at hb
    exact ⟨h.join hp hb.1 hb.2, .update rfl ⟨rfl, rfl⟩⟩
  | none =>
    have hn : ∀ c, (s.buf c).dev = rootdev → (s.buf c).blockno ≠ n := by
      intro c hc he
      have := List.find?_eq_none.1 hfind c (hall c)
      simp [hc, he] at this
    dsimp only
    rw [hl.walk_prev hlen]
    cases hunused : l.reverse.find? fun b =>
        decide ((s.buf b).refcnt = 0 ∧ (s.buf b).dirty = false) with
    | none => exact Or.inr rfl
    | some b =>
      have hb := List.find?_some hunused
      simp only [decide_eq_true_eq] at hb
      -- the buffer becomes that of the block, and then has a caller
      have hjoin := (h.rename hb.1 hb.2 hn).join (b := b) (n := n) hp
        (by simp [Bcache.setBuf]) (by simp [Bcache.setBuf])
      refine ⟨?_, fun c hc => ?_⟩
      · simpa [Bcache.setBuf, Bcache.setUse, hb.1] using hjoin
      · by_cases hcb : c = b
        · rw [hcb]
          exact hb
        · simp [Bcache.setBuf, Bcache.setUse, hcb] at hc

theorem acquiresleep_spec (h : Good s) (p : P) : Sound s (s.acquiresleep p) := by
  unfold Bcache.acquiresleep
  split
  · next b n hp =>
    split
    · exact Or.inl rfl
    next hfree =>
    have hidle : ∀ q v, s.use q = some v → v.buf = b → v.stage.locks = false := by
      intro q v hq hv
      refine Bool.eq_false_of_not_eq_true fun hlocks => hfree ?_
      rw [← hv]
      exact h.lock hq hlocks
    have hqueue : b ∉ s.idequeue := by
      intro hb
      obtain ⟨q, v, hq, hv, hbusy⟩ := h.queued hb
      have := hidle q v hq hv
      rw [Stage.locks_of_busy hbusy] at this
      cases this
    exact ⟨h.restage hp (fun q v _ => hidle q v) { s.buf b with locked := true } ⟨rfl, rfl, rfl⟩
      (fun _ => rfl) hqueue h.nodup (fun _ _ => Iff.rfl) (fun hb => absurd hb hqueue) h.clean
      (fun _ _ => ⟨rfl, rfl⟩) (h.onDisk hp) (fun hv => Or.inl (h.inBuf hp (fun q v _ => hidle q v)
        nofun hv)), .update rfl ⟨rfl, rfl⟩⟩
  · exact Or.inl rfl

-- ======== the disk

section Queue

omit [Fintype P] [DecidableEq P]

/-- A request that has something to do. -/
theorem iderw_eq (hlock : (s.buf b).locked = true)
    (hwork : ¬ ((s.buf b).valid = true ∧ (s.buf b).dirty = false)) :
    s.iderw b = .ok { s with idequeue := s.idequeue ++ [b] } := by
  unfold Bcache.iderw
  rw [if_neg (by rw [hlock]; exact Bool.noConfusion), if_neg hwork]

end Queue

/-- The queue with one more request. -/
theorem queue_snoc (h : queue.Nodup) (hb : b ∉ queue) :
    (queue ++ [b]).Nodup ∧ ∀ c, c ≠ b → (c ∈ queue ++ [b] ↔ c ∈ queue) := by
  refine ⟨List.nodup_append'.2 ⟨h, List.nodup_singleton b, ?_⟩, fun c hc => by simp [hc]⟩
  intro c hc hcb
  rw [List.mem_singleton.1 hcb] at hc
  exact hb hc

/-- A caller goes on and leaves its buffer as it is. -/
theorem Good.advance (h : Good s) (hp : s.use p = some u)
    (halone : ∀ q v, q ≠ p → s.use q = some v → v.buf = u.buf → v.stage.locks = false) (hlock : (s.buf u.buf).locked = true)
    (hflags : StageOk (s.buf u.buf).valid (s.buf u.buf).dirty (u.buf ∈ queue) st)
    (hnodup : queue.Nodup) (hqueue : ∀ c, c ≠ u.buf → (c ∈ queue ↔ c ∈ s.idequeue))
    (hbusy : u.buf ∈ queue → st.busy = true) (hst : u.stage ≠ .holding true) :
    Good { s with use := update s.use p (some ⟨st, u.buf, u.block⟩), idequeue := queue } := by
  have hgood := h.restage hp halone (s.buf u.buf) ⟨rfl, rfl, rfl⟩ (fun _ => hlock) hflags hnodup
    hqueue hbusy h.clean (fun _ _ => ⟨rfl, rfl⟩) (h.onDisk hp)
    fun hv => Or.inl (h.inBuf hp halone hst hv)
  rw [update_eq_self] at hgood
  exact hgood

theorem bread_spec (h : Good s) (p : P) : Sound s (s.bread p) := by
  unfold Bcache.bread
  split
  · next b n hp =>
    have hsole := h.sole hp rfl
    have hlock := h.lock hp rfl
    have hqueue : b ∉ s.idequeue := h.flags hp
    split
    · next hvalid =>
      exact ⟨h.advance hp hsole hlock ⟨hvalid, hqueue⟩ h.nodup (fun _ _ => Iff.rfl)
        (fun hb => absurd hb hqueue) nofun, .refl rfl⟩
    · next hvalid =>
      have hclean : (s.buf b).dirty = false :=
        Bool.eq_false_of_not_eq_true fun hd => hvalid (h.clean hd)
      obtain ⟨hnodup, hother⟩ := queue_snoc h.nodup hqueue
      rw [iderw_eq hlock fun hv => hvalid hv.1]
      refine ⟨h.advance hp hsole hlock ⟨hclean, ?_⟩ hnodup hother (fun _ => rfl) nofun, .refl rfl⟩
      simp [hvalid]
  · exact Or.inl rfl

theorem wake_spec (h : Good s) (p : P) : Sound s (s.wake p) := by
  -- in either `iderw` the flags tell that the request is not queued
  have hgo : ∀ {b n st}, s.use p = some ⟨st, b, n⟩ → st.busy = true →
      (s.buf b).valid = true ∧ (s.buf b).dirty = false →
      Good (s.setUse p (some ⟨.holding false, b, n⟩)) := by
    intro b n st hp hbusy hdone
    have hlocks := Stage.locks_of_busy hbusy
    have hflags := h.flags hp
    have hqueue : b ∉ s.idequeue := by
      cases st with
      | reading => exact hflags.2.1 hdone.1
      | writing =>
        intro hb
        have := hflags.2.2 hb
        rw [hdone.2] at this
        cases this
      | _ => cases hbusy
    refine h.advance hp (h.sole hp hlocks) (h.lock hp hlocks) ⟨hdone.1, hqueue⟩ h.nodup
      (fun _ _ => Iff.rfl) (fun hb => absurd hb hqueue) ?_
    rintro rfl
    cases hbusy
  unfold Bcache.wake
  split
  · next hp =>
    split
    · next hdone => exact ⟨hgo hp rfl hdone, .refl rfl⟩
    · exact Or.inl rfl
  · next hp =>
    split
    · next hdone => exact ⟨hgo hp rfl hdone, .refl rfl⟩
    · exact Or.inl rfl
  · exact Or.inl rfl

theorem ideintr_spec (h : Good s) : Sound s s.ideintr := by
  unfold Bcache.ideintr
  split
  · exact Or.inl rfl
  next b queue hq =>
  obtain ⟨p, u, hp, rfl, hbusy⟩ := h.queued (b := b) (by rw [hq]; exact List.mem_cons_self ..)
  have hlocks := Stage.locks_of_busy hbusy
  have hsole := h.sole hp hlocks
  have hflags := h.flags hp
  have hqueued : u.buf ∈ s.idequeue := by
    rw [hq]
    exact List.mem_cons_self ..
  have hnodup := h.nodup
  rw [hq] at hnodup
  obtain ⟨hnot, hnodup⟩ := List.nodup_cons.1 hnodup
  have hother : ∀ c, c ≠ u.buf → (c ∈ queue ↔ c ∈ s.idequeue) := by
    intro c hc
    rw [hq]
    simp [hc]
  -- the caller stays where it is
  have hself : update s.use p (some ⟨u.stage, u.buf, u.block⟩) = s.use := by
    rw [show (some ⟨u.stage, u.buf, u.block⟩ : Option Use) = s.use p from hp.symm,
      update_eq_self]
  have hdone : StageOk true false (u.buf ∈ queue) u.stage := by
    cases hst : u.stage with
    | reading => exact ⟨rfl, by simp [hnot]⟩
    | writing => exact ⟨rfl, by simp [hnot]⟩
    | _ => rw [hst] at hbusy; cases hbusy
  have hstage : u.stage ≠ .holding true := by
    intro hst
    rw [hst] at hbusy
    cases hbusy
  obtain ⟨-, hblock⟩ := h.block hp
  split
  · next hdirty =>
    -- a write: the buffer has the last data, and the disk gets them
    have hdata := h.inBuf hp hsole hstage (h.clean hdirty)
    have hgood : Good { s with
        buf := update s.buf u.buf { s.buf u.buf with valid := true, dirty := false }
        use := update s.use p (some ⟨u.stage, u.buf, u.block⟩), idequeue := queue
        disk := update s.disk u.block (s.buf u.buf).data } :=
      h.restage hp hsole _ ⟨rfl, rfl, rfl⟩ (fun _ => h.lock hp hlocks) hdone hnodup hother
        (fun hb => absurd hb hnot) (fun _ => rfl) (fun n hn => ⟨update_of_ne hn _ _, rfl⟩)
        (fun _ => by rw [update_self, hdata]) fun _ => Or.inl hdata
    rw [hself] at hgood
    rw [hblock]
    exact ⟨hgood, .update rfl ⟨rfl, rfl⟩⟩
  · next hclean =>
    have hdisk := h.onDisk hp (Bool.eq_false_of_not_eq_true hclean)
    have hgood := h.restage hp hsole { s.buf u.buf with
        valid := true, dirty := false, data := s.disk (s.buf u.buf).blockno }
      ⟨rfl, rfl, rfl⟩ (fun _ => h.lock hp hlocks) hdone hnodup hother (fun hb => absurd hb hnot)
      (fun _ => rfl) (fun n hn => ⟨rfl, rfl⟩) (fun _ => hdisk)
      fun _ => Or.inl (by show s.disk (s.buf u.buf).blockno = _; rw [hblock, hdisk])
    rw [hself] at hgood
    exact ⟨hgood, .update rfl ⟨rfl, rfl⟩⟩

-- ======== the callers

theorem store_spec (h : Good s) (p : P) (d : D) : Sound s (s.store p d) := by
  unfold Bcache.store
  split
  · next hp =>
    have hflags := h.flags hp
    exact ⟨h.restage hp (h.sole hp rfl) { s.buf _ with data := d } ⟨rfl, rfl, rfl⟩
      (fun _ => h.lock hp rfl) hflags h.nodup (fun _ _ => Iff.rfl) (fun hb => absurd hb hflags.2)
      h.clean (fun _ _ => ⟨rfl, rfl⟩) (h.onDisk hp) (fun _ => Or.inr rfl), .update rfl ⟨rfl, rfl⟩⟩
  · exact Or.inl rfl

theorem logWrite_spec (h : Good s) (p : P) : Sound s (s.logWrite p) := by
  unfold Bcache.logWrite
  split
  · next b n hp =>
    have hflags := h.flags hp
    refine ⟨h.restage hp (h.sole hp rfl) { s.buf b with dirty := true } ⟨rfl, rfl, rfl⟩
      (fun _ => h.lock hp rfl) hflags h.nodup (fun _ _ => Iff.rfl) (fun hb => absurd hb hflags.2)
      (fun _ => hflags.1) (fun n hn => ⟨rfl, update_of_ne hn _ _⟩) nofun
      (fun _ => Or.inl ?_), .update rfl ⟨rfl, rfl⟩⟩
    show (s.buf b).data = update s.last n (s.buf b).data n
    rw [update_self]
  · exact Or.inl rfl

theorem bwrite_spec (h : Good s) (p : P) : Sound s (s.bwrite p) := by
  unfold Bcache.bwrite
  split
  · next b n hp =>
    have hlock := h.lock hp rfl
    have hflags := h.flags hp
    obtain ⟨hnodup, hother⟩ := queue_snoc h.nodup hflags.2
    have hself : (s.setBuf b { s.buf b with dirty := true }).buf b
        = { s.buf b with dirty := true } := update_self ..
    rw [if_neg (by rw [hlock]; exact Bool.noConfusion),
      iderw_eq (by rw [hself]; exact hlock) (by rw [hself]; simp)]
    refine ⟨h.restage hp (h.sole hp rfl) { s.buf b with dirty := true } ⟨rfl, rfl, rfl⟩
      (fun _ => hlock) ⟨hflags.1, by simp [Bcache.setUse]⟩ hnodup hother (fun _ => rfl) (fun _ => hflags.1)
      (fun n hn => ⟨rfl, update_of_ne hn _ _⟩) nofun (fun _ => Or.inl ?_),
      .update rfl ⟨rfl, rfl⟩⟩
    show (s.buf b).data = update s.last n _ n
    rw [update_self]
    exact (congrArg Buf.data hself).symm
  · exact Or.inl rfl

theorem releasesleep_spec (h : Good s) (p : P) : Sound s (s.releasesleep p) := by
  unfold Bcache.releasesleep
  split
  · next b n hp =>
    have hlock := h.lock hp rfl
    have hflags := h.flags hp
    rw [if_neg (by rw [hlock]; exact Bool.noConfusion)]
    exact ⟨h.restage hp (h.sole hp rfl) { s.buf b with locked := false } ⟨rfl, rfl, rfl⟩ nofun
      trivial h.nodup (fun _ _ => Iff.rfl) (fun hb => absurd hb hflags.2) h.clean
      (fun _ _ => ⟨rfl, rfl⟩) (h.onDisk hp)
      (fun hv => Or.inl (h.inBuf hp (h.sole hp rfl) nofun hv)), .update rfl ⟨rfl, rfl⟩⟩
  · exact Or.inl rfl

theorem brelse_spec (h : Good s) (p : P) : Sound s (s.brelse p) := by
  unfold Bcache.brelse
  split
  · next b n hp =>
    have hleave : Good ((s.setBuf b { s.buf b with refcnt := (s.buf b).refcnt - 1 }).setUse p
        none) := by
      refine h.recount (fun u hu => ?_) nofun fun c => ?_
      · rw [hp] at hu
        cases hu
        rfl
      · have hsome : users s.use p = some b := by simp [users, hp]
        have hclear := refs_clear hsome c
        rw [← h.refcnt c] at hclear
        rw [Option.map_none, update_apply]
        by_cases hc : c = b
        · subst hc
          simp at hclear ⊢
          omega
        · simp [Ne.symm hc] at hclear
          simp [hc, hclear]
    dsimp only
    split
    · exact ⟨hleave.relist (relink b h.list), .update rfl ⟨rfl, rfl⟩⟩
    · exact ⟨hleave, .update rfl ⟨rfl, rfl⟩⟩
  · exact Or.inl rfl

-- ======== runs

theorem act_spec (h : Good s) (e : Event P D) : Sound s (act e s) := by
  cases e with
  | bget p n => exact bget_spec h p n
  | acquiresleep p => exact acquiresleep_spec h p
  | bread p => exact bread_spec h p
  | ideintr => exact ideintr_spec h
  | wake p => exact wake_spec h p
  | store p d => exact store_spec h p d
  | bwrite p => exact bwrite_spec h p
  | logWrite p => exact logWrite_spec h p
  | releasesleep p => exact releasesleep_spec h p
  | brelse p => exact brelse_spec h p

/-- The buffers one after another, each put at the front. -/
theorem ringed_pushAll {l done : List (Fin nbuf)} {d : Dll (Fin nbuf)} (h : Ringed d done)
    (hl : l.Nodup) (hdone : ∀ b ∈ l, b ∉ done) :
    ∃ r, Ringed (l.foldl Dll.push d) r ∧ ∀ b, b ∈ l ∨ b ∈ done → b ∈ r := by
  induction l generalizing done d with
  | nil => exact ⟨done, h, fun b hb => hb.resolve_left List.not_mem_nil⟩
  | cons b l ih =>
    obtain ⟨hb, hl⟩ := List.nodup_cons.1 hl
    have hne : ∀ c ∈ l, c ∉ b :: done := by
      intro c hc hmem
      rcases List.mem_cons.1 hmem with rfl | hmem
      · exact hb hc
      · exact hdone c (List.mem_cons_of_mem _ hc) hmem
    obtain ⟨r, hr, hall⟩ := ih (h.push (hdone b (List.mem_cons_self ..))) hl hne
    refine ⟨r, hr, fun c hc => hall c ?_⟩
    simp only [List.mem_cons] at hc ⊢
    tauto

omit [DecidableEq P] in
theorem fresh_good (data : Fin nbuf → D) (disk : Nat → D) :
    Good (fresh data disk : Bcache P D) := by
  have hroot : ∀ b, ((fresh data disk : Bcache P D).buf b).dev ≠ rootdev := fun _ => nofun
  refine ⟨?_, fun hb => absurd hb (hroot _), fun b => ?_, nofun, nofun, nofun, nofun,
    List.nodup_nil, nofun, nofun, fun hb => absurd hb (hroot _), fun hb => absurd hb (hroot _),
    fun _ => rfl⟩
  · obtain ⟨r, hr, hall⟩ := ringed_pushAll Ringed.empty (List.nodup_finRange nbuf)
      fun _ _ => List.not_mem_nil
    exact ⟨r, hr, fun b => hall b (Or.inl (List.mem_finRange b))⟩
  · have hnone : refs (users (fresh data disk : Bcache P D).use) b = 0 :=
      refs_eq_zero_iff.2 fun _ => nofun
    exact hnone.symm

theorem reach_good (h : Reach step Fresh s) : Good s := by
  refine h.invariant ?_ fun e s t hs he => ?_
  · rintro s ⟨data, disk, rfl⟩
    exact fresh_good data disk
  · have hspec := act_spec hs e
    unfold step at he
    cases hact : act e s with
    | error x =>
      rw [hact] at he
      cases he
    | ok t' =>
      rw [hact] at he hspec
      cases he
      exact hspec.1

-- ======== results

/-- The state of the cache between two steps. -/
structure Coherent (s : Bcache P D) : Prop where
  /-- From the head the list goes through every buffer once, both ways. -/
  list : ∃ l, Ringed s.list l ∧ ∀ b, b ∈ l
  one : ∀ b c, (s.buf b).dev = rootdev → (s.buf c).dev = rootdev →
    (s.buf b).blockno = (s.buf c).blockno → b = c
  /-- Whoever comes out of `bread` has the block asked for, with the data
  last written. -/
  returned : ∀ p b n, s.use p = some ⟨.holding false, b, n⟩ →
    (s.buf b).dev = rootdev ∧ (s.buf b).blockno = n ∧ (s.buf b).valid = true
      ∧ (s.buf b).data = s.last n

/-- In every run of callers that write what they store before they release
it, the cache is coherent, no step turns a buffer with callers or dirty
data into another block's, and no panic but that for want of buffers is
possible. -/
theorem buffer_cache_coherent (h : Reach step Fresh s) :
    Coherent s ∧ (∀ e t, act e s = .ok t → Recycles s t)
      ∧ ∀ e x, act e s = .error x → x = .disabled ∨ x = .noBuffers := by
  have hgood := reach_good h
  refine ⟨⟨hgood.list, fun b c => hgood.one, fun p b n hp => ?_⟩, fun e t ht => ?_,
    fun e x hx => ?_⟩
  · have hvalid := (hgood.flags hp).1
    exact ⟨(hgood.block hp).1, (hgood.block hp).2, hvalid,
      hgood.inBuf hp (hgood.sole hp rfl) nofun hvalid⟩
  · have hspec := act_spec hgood e
    rw [ht] at hspec
    exact hspec.2
  · have hspec := act_spec hgood e
    rw [hx] at hspec
    exact hspec

/-- One caller reads block 7, which is 70 on the disk, and logs 71 there; a
second caller, who asked for the block meanwhile, gets 71. -/
theorem buffer_cache_coherent_seven :
    ∃ s : Bcache (Fin 2) Nat, Reach step Fresh s
      ∧ s.use 1 = some ⟨.holding false, ⟨0, by decide⟩, 7⟩
      ∧ (s.buf ⟨0, by decide⟩).data = 71 ∧ s.disk 7 = 70
      ∧ Coherent s ∧ (∀ e t, act e s = .ok t → Recycles s t)
      ∧ ∀ e x, act e s = .error x → x = .disabled ∨ x = .noBuffers := by
  obtain ⟨s, hs, hobs⟩ := Reach.eval (s := fresh (fun _ => 0) fun n => 10 * n) step
    [.bget (0 : Fin 2) 7, .acquiresleep 0, .bread 0, .ideintr, .wake 0, .store 0 71, .bget 1 7,
      .logWrite 0, .releasesleep 0, .brelse 0, .acquiresleep 1, .bread 1]
    (fun s => (s.use 1, (s.buf ⟨0, by decide⟩).data, s.disk 7))
    (some ⟨.holding false, ⟨0, by decide⟩, 7⟩, 71, 70)
    (show Fresh _ from ⟨_, _, rfl⟩) (by decide +kernel)
  have hcoherent := buffer_cache_coherent hs
  exact ⟨s, hs, congrArg Prod.fst hobs, congrArg (fun r => r.2.1) hobs,
    congrArg (fun r => r.2.2) hobs, hcoherent⟩

end Xv6Sume32.Bio
