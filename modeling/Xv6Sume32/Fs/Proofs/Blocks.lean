/-
Blocks are owned once, over every sequence of operations.

# Loops

The loops of `readi` and `writei` put fresh blocks at empty places and
write into data blocks. Neither touches an index block that is there, so
that all numbers stay (`Extends`), whether or not the file has holes.

# Truncation

`itrunc` clears the bits of the direct blocks, of the entries of the
first-level index block and of that block, which are different ones that
are in use: it does not panic (`itrunc_spec`). It never reads the
second-level index blocks. Their entries are owned by nobody afterwards,
with their bits set.

# Two copies

An operation may allocate a block for a hole and not write the inode. The
copy on the disk then has 0 at a place where the one in the cache has a
number (`Behind`), and when the entry is recycled the block is lost, but
it is not given away.
-/
import Xv6Sume32.Fs.Proofs.Owner
import Xv6Sume32.Lib.Loop

namespace Xv6Sume32.Fs

open Lib
open Function (update update_eq_self update_idem update_of_ne update_self)

variable {sb : Superblock} {s t u : FsState} {i : Nat}

variable {p : Pos} {b off k i' : Nat} {f : Nat → Nat} {ip : Dinode} {devsw : Devsw}

-- ======== safety

/-- A result that, if it is one, has a property, and if it is a panic is
not that of `bfree`. -/
def Safe {α : Type} (P : α → Prop) : Except FsPanic α → Prop
  | .ok a => P a
  | .error e => e ≠ .freeingFree

section Safe

variable {α β : Type} {P : α → Prop} {Q : β → Prop}

theorem Safe.bind {r : Except FsPanic α} {f : α → Except FsPanic β} (h : Safe P r)
    (hf : ∀ a, P a → Safe Q (f a)) : Safe Q (r >>= f) := by
  cases r with
  | error e => exact h
  | ok a => exact hf a h

theorem Safe.imp {Q : α → Prop} {r : Except FsPanic α} (h : Safe P r)
    (hq : ∀ a, P a → Q a) : Safe Q r := by
  cases r with
  | error e => exact h
  | ok a => exact hq a h

end Safe

-- ======== writing

/-- A data block is written. -/
def FsState.setBlk (s : FsState) (a : Nat) (x : Block) : FsState :=
  { s with blk := update s.blk a x }

/-- No number is in a data block. -/
theorem Owned.own_setBlk (h : Owned sb s) (bn : Nat) (x : Block) (i' : Nat) (p : Pos) :
    own (s.setBlk (own s i (.data bn)) x) i' p = own s i' p := by
  have hkeep : ∀ q, (∀ n, q ≠ .data n) → own s i' q ≠ 0 →
      (s.setBlk (own s i (.data bn)) x).blk (own s i' q) = s.blk (own s i' q) := by
    intro q hq hne
    refine update_of_ne (fun he => ?_) _ _
    exact hq bn (h.unique i' q i _ hne he).2
  exact own_congr (s := s) (t := s.setBlk _ x) rfl (fun _ _ => rfl) (hkeep _ nofun)
    (fun j => hkeep _ nofun) p

/-- Numbers may disappear. -/
theorem Owned.shrink (h : Owned sb s) (ho : ∀ i p, own t i p ≠ 0 → own t i p = own s i p)
    (hm : ∀ b, b < sb.dataStart → t.used b = true)
    (hu : ∀ i p, own t i p ≠ 0 → t.used (own t i p) = true) : Owned sb t := by
  refine ⟨h.word, h.start, hm, fun i p hne => ?_, fun i p i' p' hne he => ?_⟩
  · have he := ho i p hne
    have hplace := h.place i p (by rw [← he]; exact hne)
    rw [← he] at hplace
    exact ⟨hplace.1, hplace.2.1, hu i p hne⟩
  · have hne' := hne
    rw [he] at hne'
    rw [ho i p hne, ho i' p' hne'] at he
    rw [ho i p hne] at hne
    exact h.unique i p i' p' hne he

theorem Owned.of_own (h : Owned sb s) (hu : t.used = s.used)
    (ho : ∀ i p, own t i p ≠ 0 → own t i p = own s i p) : Owned sb t := by
  refine h.shrink ho (fun b hb => by rw [hu]; exact h.metadata b hb) fun i p hne => ?_
  rw [hu, ho i p hne]
  rw [ho i p hne] at hne
  exact (h.place i p hne).2.2

/-- A file has more blocks, and nothing else has changed but data. -/
structure Extends (sb : Superblock) (i : Nat) (s t : FsState) : Prop where
  owned : Owned sb t
  disk : t.disk = s.disk
  mem : ∀ i', i' ≠ i → t.mem i' = s.mem i'
  self : ∃ addrs, t.mem i = { s.mem i with addrs := addrs }
  other : ∀ i' p, i' ≠ i → own t i' p = own s i' p
  old : ∀ p, own s i p ≠ 0 → own t i p = own s i p
  used : ∀ b, s.used b = true → t.used b = true
  new : ∀ p, own t i p = own s i p ∨ s.used (own t i p) = false

theorem Extends.refl (h : Owned sb s) : Extends sb i s s :=
  ⟨h, rfl, fun _ _ => rfl, ⟨_, rfl⟩, fun _ _ _ => rfl, fun _ _ => rfl, fun _ => id,
    fun _ => Or.inl rfl⟩

theorem Extends.trans (h₁ : Extends sb i s t) (h₂ : Extends sb i t u) : Extends sb i s u := by
  refine ⟨h₂.owned, h₂.disk.trans h₁.disk, fun i' hi => (h₂.mem i' hi).trans (h₁.mem i' hi),
    ?_, fun i' p hi => (h₂.other i' p hi).trans (h₁.other i' p hi), fun p hp => ?_,
    fun b hb => h₂.used b (h₁.used b hb), fun p => ?_⟩
  · obtain ⟨_, ht⟩ := h₁.self
    obtain ⟨_, hu⟩ := h₂.self
    rw [ht] at hu
    exact ⟨_, hu⟩
  · have ho := h₁.old p hp
    rw [h₂.old p (by rw [ho]; exact hp), ho]
  · rcases h₂.new p with he | hun
    · rw [he]
      exact h₁.new p
    · refine Or.inr ?_
      by_contra hused
      rw [h₁.used _ (Bool.eq_true_of_not_eq_false hused)] at hun
      cases hun

theorem Extends.live (h : Extends sb i s t) (hl : (s.mem i).kind ≠ .free) :
    (t.mem i).kind ≠ .free := by
  obtain ⟨_, ht⟩ := h.self
  rw [ht]
  exact hl

theorem Attached.extends (ha : Attached s t i p b) (h : Owned sb s)
    (hb : b ∈ freeBlocks sb s) : Extends sb i s t := by
  have hun := (mem_freeBlocks.1 hb).2
  refine ⟨h.attach ha hun (mem_freeBlocks.1 hb).1, ha.disk, ha.mem, ha.self,
    fun i' p' hi => ha.there i' p' fun he => hi (by injection he), fun p' hp => ?_,
    fun c hc => ?_, fun p' => ?_⟩
  · refine ha.there i p' fun he => hp ?_
    cases he
    exact ha.empty
  · rw [ha.used]
    by_cases hcb : c = b
    · rw [hcb, update_self]
    · rw [update_of_ne hcb]
      exact hc
  · by_cases hp : p' = p
    · rw [hp, ha.here]
      exact Or.inr hun
    · exact Or.inl (ha.there i p' fun he => hp (by injection he))

theorem Grown.extends {ps : List Pos} (h : Grown sb i s t ps) (ho : Owned sb s) :
    Extends sb i s t := by
  induction h with
  | refl => exact .refl ho
  | snoc hg ha hb ih => exact ih.trans (ha.extends (hg.owned ho) hb)

theorem Owned.extends_setBlk (h : Owned sb s) (bn : Nat) (x : Block) :
    Extends sb i s (s.setBlk (own s i (.data bn)) x) :=
  have ho := h.own_setBlk bn x
  ⟨h.of_own rfl fun i' p _ => ho i' p, rfl, fun _ _ => rfl, ⟨_, rfl⟩, fun i' p _ => ho i' p, fun p _ => ho i p,
    fun _ => id, fun p => Or.inl (ho i p)⟩

theorem bmap_safe (h : Owned sb s) (hl : (s.mem i).kind ≠ .free) (bn : Nat) :
    Safe (fun x => Extends sb i s x.2 ∧ x.1 = own x.2 i (.data bn)) (bmap sb s i bn) := by
  rcases Nat.lt_or_ge bn maxFile with hbn | hbn
  · rcases bmap_fills h hl hbn with ⟨t, hr, hg⟩ | ⟨hr, _⟩
    · rw [hr]
      exact ⟨hg.extends h, rfl⟩
    · rw [hr]
      exact nofun
  · rw [bmap_range hbn]
    exact nofun

theorem readLoop_safe (fuel : Nat) {n : Nat} (h : Owned sb s) (hl : (s.mem i).kind ≠ .free) :
    Safe (fun x => Extends sb i s x.2) (readLoop sb i fuel off n s) := by
  induction fuel generalizing off n s with
  | zero => exact .refl h
  | succ fuel ih =>
    unfold readLoop
    split
    · exact .refl h
    refine (bmap_safe h hl _).bind fun x hx => ?_
    refine (ih hx.1.owned (hx.1.live hl)).bind fun y hy => ?_
    exact hx.1.trans hy

theorem writeLoop_safe (fuel : Nat) {src : List Byte} (h : Owned sb s)
    (hl : (s.mem i).kind ≠ .free) : Safe (Extends sb i s) (writeLoop sb i fuel off src s) := by
  induction fuel generalizing off src s with
  | zero => exact .refl h
  | succ fuel ih =>
    unfold writeLoop
    split
    · exact .refl h
    refine (bmap_safe h hl _).bind fun x ⟨hext, ha⟩ => ?_
    have hset := hext.trans (hext.owned.extends_setBlk (off / bsize)
      (putBytes (x.2.blk x.1) (off % bsize) (src.take (min src.length (bsize - off % bsize)))))
    rw [← ha] at hset
    exact (ih hset.owned (hset.live hl)).imp fun t ht => hset.trans ht

-- ======== truncation

/-- The bits when the first `k` of a sequence of blocks have been freed. -/
def cleared (used : Nat → Bool) (f : Nat → Nat) (k : Nat) (b : Nat) : Bool :=
  used b && decide (∀ n < k, f n = b → b = 0)

theorem cleared_eq_true {used : Nat → Bool} :
    cleared used f k b = true ↔ used b = true ∧ ∀ n < k, f n = b → b = 0 := by
  simp [cleared]

theorem cleared_zero {used : Nat → Bool} : cleared used f 0 = used := by
  funext b
  rw [Bool.eq_iff_iff, cleared_eq_true]
  exact ⟨And.left, fun h => ⟨h, fun n hn => absurd hn (Nat.not_lt_zero n)⟩⟩

/-- Freeing the next one, which has not been freed yet. -/
theorem bfreeEntry_cleared {used : Nat → Bool}
    (hs : s.used = cleared used f k) (hf : f k ≠ 0 → used (f k) = true ∧ ∀ n < k, f n ≠ f k) :
    bfreeEntry s (f k) = .ok { s with used := cleared used f (k + 1) } := by
  unfold bfreeEntry
  split
  · next h0 =>
    have hu : s.used (f k) = true := by
      rw [hs, cleared_eq_true]
      exact ⟨(hf h0).1, fun n hn he => absurd he ((hf h0).2 n hn)⟩
    have hupd : update s.used (f k) false = cleared used f (k + 1) := by
      funext b
      by_cases hb : b = f k
      · rw [hb, update_self, eq_comm, Bool.eq_false_iff, ne_eq, cleared_eq_true]
        exact fun h => h0 (h.2 k (Nat.lt_succ_self k) rfl)
      · rw [update_of_ne hb, hs, Bool.eq_iff_iff, cleared_eq_true, cleared_eq_true]
        refine and_congr_right fun _ => ⟨fun h n hn he => ?_, fun h n hn => h n (by omega)⟩
        rcases Nat.lt_succ_iff_lt_or_eq.1 hn with hn | rfl
        · exact h n hn he
        · exact absurd he.symm hb
    unfold bfree
    rw [if_pos hu, hupd]
  · next h0 =>
    have h0 : f k = 0 := not_not.1 h0
    have hupd : s.used = cleared used f (k + 1) := by
      funext b
      rw [hs, Bool.eq_iff_iff, cleared_eq_true, cleared_eq_true]
      refine and_congr_right fun _ => ⟨fun h n hn he => ?_, fun h n hn => h n (by omega)⟩
      rcases Nat.lt_succ_iff_lt_or_eq.1 hn with hn | rfl
      · exact h n hn he
      · rw [← he, h0]
    rw [← hupd]

/-- The places that `itrunc` knows of. -/
def Pos.upper : Pos → Prop
  | .data bn => bn < ndirect
  | _ => True

/-- What `itrunc` does. -/
structure Truncated (s t : FsState) (i : Nat) : Prop where
  blk : t.blk = s.blk
  used : ∀ b, t.used b = true ↔
    s.used b = true ∧ ∀ p : Pos, p.upper → own s i p = b → b = 0
  mem : ∃ addrs, (∀ n, n ≤ ndirect → addrs n = 0) ∧
    t.mem = update s.mem i { s.mem i with size := 0, addrs := addrs } ∧
    t.disk = update s.disk i { s.mem i with size := 0, addrs := addrs }

theorem update_zeros (f : Nat → Nat) (k : Nat) :
    update (fun n => if n < k then 0 else f n) k 0
      = fun n => if n < k + 1 then 0 else f n := by
  funext n
  rcases Nat.lt_trichotomy n k with hn | rfl | hn
  · rw [update_of_ne (Nat.ne_of_lt hn), if_pos hn, if_pos (Nat.lt_succ_of_lt hn)]
  · rw [update_self, if_pos (Nat.lt_succ_self n)]
  · rw [update_of_ne (Nat.ne_of_gt hn), if_neg (by omega), if_neg (by omega)]

/-- The end of `itrunc`. -/
def truncate (s : FsState) (i : Nat) : FsState :=
  iupdate (s.setMem i { s.mem i with size := 0 }) i

/-- The state after the first `k` rounds of the first loop. -/
def truncDirect (s : FsState) (i k : Nat) : FsState :=
  { s with
    used := cleared s.used (s.mem i).addrs k
    mem := update s.mem i
      { s.mem i with addrs := fun n => if n < k then 0 else (s.mem i).addrs n } }

theorem truncDirect_zero : truncDirect s i 0 = s := by
  have hm : update s.mem i
      { s.mem i with addrs := fun n => if n < 0 then 0 else (s.mem i).addrs n } = s.mem :=
    update_eq_self i s.mem
  unfold truncDirect
  rw [cleared_zero, hm]

theorem Truncated.of {d : FsState} (addrs : Nat → Nat) (hblk : d.blk = s.blk)
    (hu : ∀ b, d.used b = true ↔ s.used b = true ∧ ∀ p : Pos, p.upper → own s i p = b → b = 0)
    (hm : d.mem = update s.mem i { s.mem i with addrs := addrs })
    (hd : d.disk = s.disk) (hz : ∀ n, n ≤ ndirect → addrs n = 0) :
    Truncated s (truncate d i) i := by
  have hself : d.mem i = { s.mem i with addrs := addrs } := by rw [hm, update_self]
  have hmem : (truncate d i).mem
      = update s.mem i { s.mem i with size := 0, addrs := addrs } := by
    show update d.mem i { d.mem i with size := 0 } = _
    rw [hself, hm, update_idem]
  refine ⟨hblk, hu, addrs, hz, hmem, ?_⟩
  show update d.disk i ((truncate d i).mem i) = _
  rw [hmem, update_self, hd]

section Itrunc

variable (h : Owned sb s) (hl : (s.mem i).kind ≠ .free)

include h hl

/-- The first loop. -/
theorem itrunc_direct :
    (List.range ndirect).foldlM (fun s n => do
      let s ← bfreeEntry s ((s.mem i).addrs n)
      .ok (s.setAddr i n 0)) s = .ok (truncDirect s i ndirect) := by
  refine foldlM_range (truncDirect s i) truncDirect_zero fun k hk => ?_
  have haddr : ((truncDirect s i k).mem i).addrs k = (s.mem i).addrs k := by
    show (update s.mem i _ i).addrs k = _
    rw [update_self]
    exact if_neg (Nat.lt_irrefl k)
  have hfree := bfreeEntry_cleared (s := truncDirect s i k) (f := (s.mem i).addrs) (k := k)
    rfl fun hne => by
      rw [← own_direct hl hk] at hne ⊢
      refine ⟨(h.place i _ hne).2.2, fun n hn he => ?_⟩
      rw [← own_direct hl (Nat.lt_trans hn hk)] at he
      have := (h.unique i _ i _ hne he.symm).2
      injection this
      omega
  rw [haddr, hfree]
  show Except.ok (FsState.setAddr _ i k 0) = _
  unfold FsState.setAddr FsState.setMem truncDirect
  dsimp only
  rw [update_self, update_idem]
  dsimp only
  rw [update_zeros]

/-- The second loop, over the entries of the first-level index block. -/
theorem itrunc_mids (hr : rootOf s i ≠ 0) :
    (List.range nindirect).foldlM (fun t j => bfreeEntry t (t.blk (rootOf s i) j).toNat)
        (truncDirect s i ndirect)
      = .ok { truncDirect s i ndirect with
          used := cleared (truncDirect s i ndirect).used (midOf s i) nindirect } := by
  have hmid : ∀ j, (s.blk (rootOf s i) j).toNat = midOf s i j := fun j => (if_neg hr).symm
  refine foldlM_range (fun k => { truncDirect s i ndirect with
    used := cleared (truncDirect s i ndirect).used (midOf s i) k }) ?_ fun k hk => ?_
  · have hu : cleared (truncDirect s i ndirect).used (midOf s i) 0
        = (truncDirect s i ndirect).used := cleared_zero
    dsimp only
    rw [hu]
  · show bfreeEntry _ (s.blk (rootOf s i) k).toNat = _
    rw [hmid]
    refine bfreeEntry_cleared rfl fun hne => ?_
    rw [← own_mid hl hk] at hne ⊢
    refine ⟨cleared_eq_true.2 ⟨(h.place i _ hne).2.2, fun n hn he => ?_⟩, fun n hn he => ?_⟩
    · rw [← own_direct hl hn] at he
      exact nomatch (h.unique i _ i _ hne he.symm).2
    · rw [← own_mid hl (Nat.lt_trans hn hk)] at he
      have := (h.unique i _ i _ hne he.symm).2
      injection this
      omega

omit h in
/-- The bits that are left when there is no first-level index block. -/
theorem used_direct (hr : rootOf s i = 0) (b : Nat) : (truncDirect s i ndirect).used b = true ↔
      s.used b = true ∧ ∀ p : Pos, p.upper → own s i p = b → b = 0 := by
  refine cleared_eq_true.trans (and_congr_right fun _ => ⟨fun hd p hp he => ?_, fun hu n hn he => ?_⟩)
  · cases p with
    | root =>
      rw [← he, own_root hl, hr]
    | mid j =>
      rw [← he]
      by_cases hj : j < nindirect
      · rw [own_mid hl hj]
        exact if_pos hr
      · exact own_mid_ge hj
    | data bn =>
      rw [own_direct hl hp] at he
      exact hd bn hp he
  · exact hu (.data n) hn ((own_direct hl hn).trans he)

omit h in
/-- The bits that are left when there is one. -/
theorem used_root (hr : rootOf s i ≠ 0) (b : Nat) :
    update (cleared (truncDirect s i ndirect).used (midOf s i) nindirect)
        (rootOf s i) false b = true ↔
      s.used b = true ∧ ∀ p : Pos, p.upper → own s i p = b → b = 0 := by
  by_cases hb : b = rootOf s i
  · rw [hb, update_self]
    refine iff_of_false Bool.false_ne_true fun hu => hr ?_
    exact hu.2 .root trivial (own_root hl)
  rw [update_of_ne hb, cleared_eq_true]
  refine (and_congr_left fun _ => cleared_eq_true).trans ⟨fun ⟨⟨hu, hd⟩, hm⟩ => ⟨hu, ?_⟩,
    fun ⟨hu, ha⟩ => ⟨⟨hu, fun n hn he => ?_⟩, fun j hj he => ?_⟩⟩
  · intro p hp he
    cases p with
    | root => exact absurd ((own_root hl).symm.trans he).symm hb
    | mid j =>
      by_cases hj : j < nindirect
      · exact hm j hj ((own_mid hl hj).symm.trans he)
      · rw [← he]
        exact own_mid_ge hj
    | data bn => exact hd bn hp ((own_direct hl hp).symm.trans he)
  · exact ha (.data n) hn ((own_direct hl hn).trans he)
  · exact ha (.mid j) trivial ((own_mid hl hj).trans he)

/-- The first-level index block is none of the blocks freed before it. -/
theorem itrunc_root (hr : rootOf s i ≠ 0) :
    cleared (truncDirect s i ndirect).used (midOf s i) nindirect (rootOf s i) = true := by
  have hown := own_root hl
  have hne : own s i .root ≠ 0 := by rw [hown]; exact hr
  refine cleared_eq_true.2 ⟨cleared_eq_true.2 ⟨?_, fun n hn he => ?_⟩, fun j hj he => ?_⟩
  · rw [← hown]
    exact (h.place i _ hne).2.2
  · rw [← hown, ← own_direct hl hn] at he
    exact nomatch (h.unique i _ i _ hne he.symm).2
  · rw [← hown, ← own_mid hl hj] at he
    exact nomatch (h.unique i _ i _ hne he.symm).2

/-- `itrunc` frees what it knows of and does not panic. -/
theorem itrunc_spec : ∃ t, itrunc s i = .ok t ∧ Truncated s t i := by
  have hself : (truncDirect s i ndirect).mem i
      = { s.mem i with addrs := fun n => if n < ndirect then 0 else (s.mem i).addrs n } :=
    update_self i _ _
  have hroot : ((truncDirect s i ndirect).mem i).addrs ndirect = rootOf s i := by
    rw [hself]
    show (if ndirect < ndirect then 0 else (s.mem i).addrs ndirect) = _
    exact if_neg (Nat.lt_irrefl ndirect)
  by_cases hr : rootOf s i = 0
  · refine ⟨truncate (truncDirect s i ndirect) i, bind_of_ok (itrunc_direct h hl) ?_,
      Truncated.of _ rfl (used_direct hl hr) rfl rfl fun n hn => ?_⟩
    · dsimp only
      rw [hroot, if_neg (not_not.2 hr)]
      rfl
    · rcases Nat.lt_or_eq_of_le hn with hn | rfl
      · exact if_pos hn
      · exact (if_neg (Nat.lt_irrefl ndirect)).trans hr
  · refine ⟨truncate (FsState.setAddr { truncDirect s i ndirect with
          used := update (cleared (truncDirect s i ndirect).used (midOf s i) nindirect)
            (rootOf s i) false } i ndirect 0) i, bind_of_ok (itrunc_direct h hl) ?_,
      Truncated.of (fun n => if n < ndirect + 1 then 0 else (s.mem i).addrs n) rfl
        (used_root hl hr) ?_ rfl fun n hn => if_pos (Nat.lt_succ_of_le hn)⟩
    · dsimp only
      rw [hroot, if_pos hr]
      exact bind_of_ok (itrunc_mids h hl hr) (bind_of_ok (if_pos (itrunc_root h hl hr)) rfl)
    · unfold FsState.setAddr FsState.setMem
      dsimp only
      rw [hself]
      dsimp only
      rw [update_zeros]
      exact update_idem _ _ _

end Itrunc

theorem own_of_mem (hm : t.mem i = s.mem i) (hb : t.blk = s.blk) (p : Pos) :
    own t i p = own s i p :=
  own_congr (by rw [hm]) (fun _ _ => by rw [hm]) (fun _ => by rw [hb]) (fun _ _ => by rw [hb]) p

/-- Without a first-level index block there are direct blocks only. -/
theorem own_rootless (hroot : rootOf s i = 0) (hp : ∀ n, n < ndirect → p ≠ .data n) :
    own s i p = 0 := by
  have hmid : ∀ j, midOf s i j = 0 := fun j => if_pos hroot
  by_cases hl : (s.mem i).kind = .free
  · exact own_free hl p
  cases p with
  | root => rw [own_root hl, hroot]
  | mid j =>
    by_cases hj : j < nindirect
    · rw [own_mid hl hj, hmid]
    · exact own_mid_ge hj
  | data bn =>
    have hd : ndirect ≤ bn := Nat.not_lt.1 fun h => hp bn h rfl
    by_cases hbn : bn < maxFile
    · rw [own_leaf hl hd hbn]
      exact if_pos (hmid _)
    · exact own_data_ge hbn

/-- An inode without numbers owns nothing. -/
theorem own_empty (h : ∀ n, n ≤ ndirect → (s.mem i).addrs n = 0) (p : Pos) : own s i p = 0 := by
  by_cases hl : (s.mem i).kind = .free
  · exact own_free hl p
  by_cases hp : ∀ n, n < ndirect → p ≠ .data n
  · exact own_rootless (h ndirect (Nat.le_refl _)) hp
  · push Not at hp
    obtain ⟨n, hn, rfl⟩ := hp
    rw [own_direct hl hn, h n (Nat.le_of_lt hn)]

section Truncated

variable (ht : Truncated s t i)

include ht

theorem Truncated.own_self (p : Pos) : own t i p = 0 := by
  obtain ⟨addrs, hz, hm, _⟩ := ht.mem
  refine own_empty (fun n hn => ?_) p
  rw [hm, update_self]
  exact hz n hn

theorem Truncated.mem_other (hi : i' ≠ i) : t.mem i' = s.mem i' := by
  obtain ⟨addrs, _, hm, _⟩ := ht.mem
  rw [hm, update_of_ne hi]

theorem Truncated.own_other (hi : i' ≠ i) (p : Pos) : own t i' p = own s i' p :=
  own_of_mem (ht.mem_other hi) ht.blk p

theorem Truncated.own_old (hne : own t i' p ≠ 0) : i' ≠ i ∧ own t i' p = own s i' p := by
  have hi : i' ≠ i := fun he => hne (by rw [he]; exact ht.own_self p)
  exact ⟨hi, ht.own_other hi p⟩

theorem Owned.truncated (h : Owned sb s) : Owned sb t := by
  refine h.shrink (fun i' p hne => (ht.own_old hne).2) (fun b hb => ?_) fun i' p hne => ?_
  · refine (ht.used b).2 ⟨h.metadata b hb, fun p _ he => ?_⟩
    by_contra h0
    rw [← he] at h0 hb
    exact Nat.not_le.2 hb (h.place i p h0).1
  · obtain ⟨hi, he⟩ := ht.own_old hne
    rw [he] at hne ⊢
    refine (ht.used _).2 ⟨(h.place i' p hne).2.2, fun q _ hq => ?_⟩
    exact absurd (h.unique i' p i q hne hq.symm).1 hi

end Truncated

-- ======== operations

/-- The copy of an inode on the disk has no number that the one in the
cache does not have. -/
def Behind (s : FsState) : Prop :=
  ∀ i, (s.disk i).kind = (s.mem i).kind ∧
    ∀ n, n ≤ ndirect → (s.disk i).addrs n = 0 ∨ (s.disk i).addrs n = (s.mem i).addrs n

/-- The invariant of the operations. -/
structure Sound (sb : Superblock) (s : FsState) : Prop where
  owned : Owned sb s
  behind : Behind s

/-- The blocks that a step adds were not in use before it. -/
def Unshared (s t : FsState) : Prop :=
  ∀ i p, own t i p ≠ 0 → own t i p = own s i p ∨ s.used (own t i p) = false

theorem Behind.update (h : Behind s) (hm : ∀ i', i' ≠ i → t.mem i' = s.mem i')
    (hd : t.disk = update s.disk i (t.mem i)) : Behind t := by
  intro i'
  rw [hd]
  by_cases hi : i' = i
  · subst hi
    rw [update_self]
    exact ⟨rfl, fun _ _ => Or.inr rfl⟩
  · rw [update_of_ne hi, hm i' hi]
    exact h i'

theorem Extends.behind (h : Extends sb i s t) (hl : (s.mem i).kind ≠ .free) (hb : Behind s) :
    Behind t := by
  intro i'
  rw [h.disk]
  by_cases hi : i' = i
  · subst hi
    obtain ⟨addrs, hself⟩ := h.self
    refine ⟨by rw [hself]; exact (hb i').1, fun n hn => ?_⟩
    rcases (hb i').2 n hn with h0 | he
    · exact Or.inl h0
    · by_cases h0 : (s.disk i').addrs n = 0
      · exact Or.inl h0
      · -- a number that is there stays
        refine Or.inr (he.trans ?_)
        rw [he] at h0
        rw [← own_addrPos hl hn] at h0 ⊢
        rw [← own_addrPos (h.live hl) hn, h.old _ h0]
  · rw [h.mem i' hi]
    exact hb i'

theorem Extends.unshared (h : Extends sb i s t) : Unshared s t := by
  intro i' p _
  by_cases hi : i' = i
  · rw [hi]
    exact h.new p
  · exact Or.inl (h.other i' p hi)

theorem Unshared.of_own (h : ∀ i p, own t i p ≠ 0 → own t i p = own s i p) : Unshared s t :=
  fun i p hne => Or.inl (h i p hne)

/-- An inode is written that owns what it did. -/
theorem Owned.own_setMem (hk : ip.kind = (s.mem i).kind)
    (ha : ip.addrs = (s.mem i).addrs) (i' : Nat) (p : Pos) :
    own (s.setMem i ip) i' p = own s i' p := by
  have hm : ((s.setMem i ip).mem i').kind = (s.mem i').kind
      ∧ ((s.setMem i ip).mem i').addrs = (s.mem i').addrs := by
    by_cases hi : i' = i
    · subst hi
      have hself : (s.setMem i' ip).mem i' = ip := update_self i' _ _
      rw [hself]
      exact ⟨hk, ha⟩
    · have hother : (s.setMem i ip).mem i' = s.mem i' := update_of_ne hi _ _
      rw [hother]
      exact ⟨rfl, rfl⟩
  exact own_congr hm.1 (fun _ _ => by rw [hm.2]) (fun _ => rfl) (fun _ _ => rfl) p

/-- The result of a step from `s`. -/
def Kept (sb : Superblock) (s t : FsState) : Prop := Sound sb t ∧ Unshared s t

theorem Kept.refl (h : Sound sb s) : Kept sb s s := ⟨h, .of_own fun _ _ _ => rfl⟩

theorem Extends.kept (h : Extends sb i s t) (hl : (s.mem i).kind ≠ .free) (hs : Sound sb s) :
    Kept sb s t := ⟨⟨h.owned, h.behind hl hs.behind⟩, h.unshared⟩

/-- A change to fields of an inode that own nothing, and its copy to the
disk. -/
theorem Kept.write (h : Kept sb s t) (hk : ip.kind = (t.mem i).kind)
    (ha : ip.addrs = (t.mem i).addrs) : Kept sb s (iupdate (t.setMem i ip) i) := by
  have ho : ∀ i' p, own (iupdate (t.setMem i ip) i) i' p = own t i' p := Owned.own_setMem hk ha
  refine ⟨⟨h.1.owned.of_own rfl fun i' p _ => ho i' p, ?_⟩, fun i' p => ?_⟩
  · exact h.1.behind.update (fun i' hi => update_of_ne hi _ _) rfl
  · rw [ho]
    exact h.2 i' p

theorem ialloc_inv {kind : Kind} {inum : Nat} (hr : ialloc sb s kind = .ok (inum, t)) :
    (s.disk inum).kind = .free ∧ t = { s with
      disk := update s.disk inum (.fresh kind)
      mem := update s.mem inum (.fresh kind) } := by
  unfold ialloc at hr
  split at hr
  · cases hr
  · next hf =>
    cases hr
    have := List.find?_some hf
    simp only [Bool.and_eq_true, decide_eq_true_eq] at this
    exact ⟨this.2, rfl⟩

/-- A new inode owns nothing, and it was free. -/
theorem own_fresh {kind : Kind} {inum : Nat} (hf : (s.mem inum).kind = .free) (i : Nat) (p : Pos) :
    own { s with
      disk := update s.disk inum (.fresh kind)
      mem := update s.mem inum (.fresh kind) } i p = own s i p := by
  by_cases hi : i = inum
  · subst hi
    rw [own_free hf]
    refine own_empty (fun n _ => ?_) p
    show (update s.mem i (.fresh kind) i).addrs n = 0
    rw [update_self]
    rfl
  · refine own_of_mem ?_ ?_ p
    · exact update_of_ne hi _ _
    · rfl

theorem own_ialloc {kind : Kind} {inum : Nat} (hr : ialloc sb s kind = .ok (inum, t))
    (hf : (s.mem inum).kind = .free) (i : Nat) (p : Pos) : own t i p = own s i p := by
  obtain ⟨_, rfl⟩ := ialloc_inv hr
  exact own_fresh hf i p

theorem ialloc_safe (h : Sound sb s) (kind : Kind) :
    Safe (fun x => Kept sb s x.2) (ialloc sb s kind) := by
  cases hr : ialloc sb s kind with
  | error e =>
    unfold ialloc at hr
    split at hr
    · cases hr
      exact nofun
    · cases hr
  | ok x =>
    obtain ⟨inum, t⟩ := x
    obtain ⟨hf, ht⟩ := ialloc_inv hr
    have ho := own_ialloc hr ((h.behind inum).1.symm.trans hf)
    refine ⟨⟨h.owned.of_own (by rw [ht]) fun i p _ => ho i p, ?_⟩, .of_own fun i p _ => ho i p⟩
    subst ht
    refine h.behind.update (i := inum) (fun i hi => update_of_ne hi _ _) ?_
    show _ = update s.disk inum (update s.mem inum (.fresh kind) inum)
    rw [update_self]

theorem readi_safe (h : Sound sb s) (hl : (s.mem i).kind ≠ .free)
    (devsw : Nat → Option (Nat → Int × List Byte)) (off n : Nat) :
    Safe (fun x => Kept sb s x.2.2) (readi sb s devsw i off n) := by
  unfold readi
  dsimp only
  split
  · split <;> exact .refl h
  split
  · exact .refl h
  · exact (readLoop_safe _ h.owned hl).bind fun x hx => hx.kept hl h

theorem writei_safe (h : Sound sb s) (hl : (s.mem i).kind ≠ .free)
    (devsw : Nat → Option (List Byte → Int)) (off : Nat) (src : List Byte) :
    Safe (fun x => Kept sb s x.2) (writei sb s devsw i off src) := by
  unfold writei
  dsimp only
  split
  · split <;> exact .refl h
  split
  · exact .refl h
  split
  · exact .refl h
  refine (writeLoop_safe _ h.owned hl).bind fun t ht => ?_
  split
  · exact (ht.kept hl h).write rfl rfl
  · exact ht.kept hl h

/-- The state after `iput` has freed an inode that has been truncated. -/
def FsState.release (s : FsState) (i : Nat) : FsState :=
  iupdate (s.setMem i { s.mem i with kind := .free }) i

section Release

variable (ht : Truncated s t i)

include ht

theorem Truncated.own_release (i' : Nat) (p : Pos) : own (t.release i) i' p = own t i' p := by
  by_cases hi : i' = i
  · subst hi
    rw [ht.own_self p]
    refine own_free ?_ p
    show (update t.mem i' _ i').kind = .free
    rw [update_self]
  · refine own_of_mem ?_ ?_ p
    · exact update_of_ne hi _ _
    · rfl

theorem Truncated.mem_release (hi : i' ≠ i) : (t.release i).mem i' = s.mem i' :=
  (update_of_ne hi _ _).trans (ht.mem_other hi)

theorem Truncated.disk_release :
    (t.release i).disk = update s.disk i ((t.release i).mem i) := by
  obtain ⟨addrs, _, _, hd⟩ := ht.mem
  show update t.disk i _ = _
  rw [hd, update_idem]
  rfl

theorem Owned.release (h : Owned sb s) : Owned sb (t.release i) :=
  (h.truncated ht).of_own rfl fun i' p _ => ht.own_release i' p

end Release

theorem iput_safe (h : Sound sb s) (hl : (s.mem i).kind ≠ .free) :
    Safe (Kept sb s) (itrunc s i >>= fun s => .ok (s.release i)) := by
  obtain ⟨t, hr, ht⟩ := itrunc_spec h.owned hl
  rw [hr]
  refine ⟨⟨h.owned.release ht, h.behind.update (fun i' hi => ht.mem_release hi) ht.disk_release⟩,
    .of_own fun i' p hne => ?_⟩
  rw [ht.own_release] at hne ⊢
  exact (ht.own_old hne).2

/-- An inode some of whose numbers are gone owns what is left. -/
theorem own_sub (hk : (t.mem i).kind = (s.mem i).kind) (hb : t.blk = s.blk)
    (ha : ∀ n, n ≤ ndirect → (t.mem i).addrs n = 0 ∨ (t.mem i).addrs n = (s.mem i).addrs n) (hne : own t i p ≠ 0) : own t i p = own s i p := by
  by_cases hl : (t.mem i).kind = .free
  · exact absurd (own_free hl p) hne
  have hl' : (s.mem i).kind ≠ .free := by rw [← hk]; exact hl
  by_cases hp : ∀ n, n < ndirect → p ≠ .data n
  · -- everything is below the first-level index block
    have hroot : rootOf t i = rootOf s i :=
      (ha ndirect (Nat.le_refl _)).resolve_left fun h0 => hne (own_rootless h0 hp)
    have hmid : ∀ j, midOf t i j = midOf s i j := fun j => midOf_congr hroot fun _ => by rw [hb]
    refine own_congr_off (Q := fun p => ∃ n, n < ndirect ∧ p = .data n) hk (fun _ => hroot)
      (fun n hn hq => absurd ⟨n, hn, rfl⟩ hq) (fun j _ _ => hmid j)
      (fun j k _ _ _ => leafOf_congr (hmid j) fun _ => by rw [hb]) ?_
    rintro ⟨n, hn, he⟩
    exact hp n hn he
  · push Not at hp
    obtain ⟨n, hn, rfl⟩ := hp
    rw [own_direct hl hn] at hne ⊢
    rw [own_direct hl' hn]
    exact (ha n (Nat.le_of_lt hn)).resolve_left hne

theorem reload_safe (h : Sound sb s) (i : Nat) : Kept sb s (s.setMem i (s.disk i)) := by
  have hself : (s.setMem i (s.disk i)).mem i = s.disk i := update_self i _ _
  have ho : ∀ i' p, own (s.setMem i (s.disk i)) i' p ≠ 0 →
      own (s.setMem i (s.disk i)) i' p = own s i' p := by
    intro i' p hne
    by_cases hi : i' = i
    · subst hi
      refine own_sub (s := s) (t := s.setMem i' _) (by rw [hself]; exact (h.behind i').1) rfl
        (fun n hn => ?_) hne
      rw [hself]
      exact (h.behind i').2 n hn
    · refine own_of_mem ?_ ?_ p
      · exact update_of_ne hi _ _
      · rfl
  refine ⟨⟨h.owned.of_own rfl ho, fun i' => ?_⟩, .of_own ho⟩
  by_cases hi : i' = i
  · subst hi
    rw [hself]
    exact ⟨rfl, fun _ _ => Or.inr rfl⟩
  · have hother : (s.setMem i (s.disk i)).mem i' = s.mem i' := update_of_ne hi _ _
    rw [hother]
    exact h.behind i'

/-- Every operation keeps the invariant, gives no block twice and frees
none that is free. -/
theorem op_safe (h : Sound sb s) (devsw : Devsw) (op : Op) :
    Safe (Kept sb s) (op.apply sb s devsw) := by
  cases op with
  | ialloc kind => exact (ialloc_safe h kind).bind fun x hx => hx
  | readi inum off n =>
    dsimp only [Op.apply]
    split
    · exact Kept.refl h
    · next hl => exact (readi_safe h hl _ _ _).bind fun x hx => hx
  | writei inum off src =>
    dsimp only [Op.apply]
    split
    · exact Kept.refl h
    · next hl => exact (writei_safe h hl _ _ _).bind fun x hx => hx
  | fields inum major nlink =>
    dsimp only [Op.apply]
    split
    · exact Kept.refl h
    · exact (Kept.refl h).write rfl rfl
  | iput inum =>
    dsimp only [Op.apply]
    split
    · exact Kept.refl h
    · next hl => exact iput_safe h fun hf => hl (Or.inl hf)
  | reload inum => exact reload_safe h inum

-- ======== results

/-- A consistent image, with nothing in the inode cache that is not on the
disk. -/
def Consistent (sb : Superblock) (s : FsState) : Prop := Owned sb s ∧ s.mem = s.disk

theorem Consistent.sound (h : Consistent sb s) : Sound sb s :=
  ⟨h.1, fun i => ⟨by rw [h.2], fun n _ => Or.inr (by rw [h.2])⟩⟩

theorem opStep_ok {op : Op} (h : opStep sb devsw op s = some t) : op.apply sb s devsw = .ok t := by
  unfold opStep at h
  cases hr : op.apply sb s devsw with
  | error e =>
    rw [hr] at h
    cases h
  | ok u =>
    rw [hr] at h
    cases h
    rfl

theorem Sound.reach (h : Reach (opStep sb devsw) (Consistent sb) s) : Sound sb s := by
  refine h.invariant (fun s hs => hs.sound) fun op s t hs hstep => ?_
  have := op_safe hs devsw op
  rw [opStep_ok hstep] at this
  exact this.1

/-- `balloc` returns a block that is at no place. -/
theorem Owned.balloc_fresh (h : Owned sb s) (hb : balloc sb s = .ok (b, t)) :
    s.used b = false ∧ ∀ i p, own s i p ≠ b := by
  rcases balloc_spec sb s with ⟨c, hc, hbal⟩ | ⟨_, hbal⟩
  · rw [hbal] at hb
    cases hb
    have hun := (mem_freeBlocks.1 hc).2
    refine ⟨hun, fun i p he => h.fresh hun i p ?_ he⟩
    have := h.unused_ge hun
    have := h.start
    omega
  · rw [hbal] at hb
    cases hb

/-- From a consistent image, after any sequence of operations: every
block number in an inode or an index block of it occurs once, lies behind
the metadata and has its bit set; `balloc` returns a block that is at no
place; the blocks an operation adds were not in use; and no operation
frees a free block. -/
theorem blocks_owned_once (sb : Superblock) (devsw : Devsw) (s : FsState)
    (hr : Reach (opStep sb devsw) (Consistent sb) s) :
    (∀ i p, own s i p ≠ 0 →
      sb.dataStart ≤ own s i p ∧ own s i p < sb.size ∧ s.used (own s i p) = true ∧
      ∀ i' p', own s i' p' = own s i p → i' = i ∧ p' = p) ∧
    (∀ b t, balloc sb s = .ok (b, t) → s.used b = false ∧ ∀ i p, own s i p ≠ b) ∧
    ∀ op : Op, op.apply sb s devsw ≠ .error .freeingFree ∧
      ∀ t, op.apply sb s devsw = .ok t → ∀ i p, own t i p ≠ 0 →
        own t i p = own s i p ∨ s.used (own t i p) = false := by
  have h := Sound.reach hr
  refine ⟨fun i p hne => ?_, fun b t hb => ?_, fun op => ?_⟩
  · obtain ⟨h1, h2, h3⟩ := h.owned.place i p hne
    refine ⟨h1, h2, h3, fun i' p' he => ?_⟩
    obtain ⟨hi, hp⟩ := h.owned.unique i p i' p' hne he.symm
    exact ⟨hi.symm, hp.symm⟩
  · exact h.owned.balloc_fresh hb
  · have hsafe := op_safe h devsw op
    cases hres : op.apply sb s devsw with
    | error e =>
        rw [hres] at hsafe
        refine ⟨fun he => hsafe ?_, nofun⟩
        injection he
    | ok u =>
        rw [hres] at hsafe
        refine ⟨nofun, fun t ht => ?_⟩
        cases ht
        exact hsafe.2

/-- An image without files. -/
def emptyImage (sb : Superblock) : FsState where
  used b := decide (b < sb.dataStart)
  blk _ _ := 0
  disk _ := .fresh .free
  mem _ := .fresh .free

theorem emptyImage_consistent (sb : Superblock) (hw : sb.size ≤ 2 ^ 32) (h0 : 0 < sb.dataStart) :
    Consistent sb (emptyImage sb) := by
  have ho : ∀ i p, own (emptyImage sb) i p = 0 := fun i p => own_free rfl p
  refine ⟨⟨hw, h0, fun b hb => decide_eq_true hb, fun i p hne => absurd (ho i p) hne,
    fun i p i' p' hne => absurd (ho i p) hne⟩, rfl⟩

/-- No device has a driver. -/
def noDevices : Devsw := ⟨fun _ => none, fun _ => none⟩

/-- A disk of 100 blocks, the first 60 of them metadata. -/
def smallDisk : Superblock := ⟨100, 10, 60⟩

/-- A file is created and written; its block has a bit that is set. -/
theorem blocks_owned_once_written :
    ∃ s, Reach (opStep smallDisk noDevices) (Consistent smallDisk) s ∧
      own s 1 (.data 0) = 60 ∧ s.used (own s 1 (.data 0)) = true := by
  obtain ⟨s, hr, ho⟩ := Reach.eval (opStep smallDisk noDevices)
    [.ialloc .file, .writei 1 0 ⟨[1, 2, 3], by decide⟩] (fun s => own s 1 (.data 0)) 60
    (emptyImage_consistent smallDisk (by decide) (by decide)) (by decide +kernel)
  refine ⟨s, hr, ho, ?_⟩
  exact ((blocks_owned_once smallDisk noDevices s hr).1 1 (.data 0)
    (by rw [ho]; decide)).2.2.1

end Xv6Sume32.Fs
