/-
Who owns a block.

A file has one place for its first-level index block, one for each of the
second-level ones and one for each of its data blocks (`Pos`); `own` is
the block number at a place, 0 where there is none. `Owned` says that
every number occurs at one place of one inode, lies behind the metadata
and has its bit set. Nothing else is needed to see that allocating and
freeing keep it: a block that `balloc` returns had its bit clear, so it is
at no place (`Owned.attach`).

# Filling places

`bmap` fills the places on the way to a data block (`path`) that are
empty. What a step of this kind changes is said once (`Attached`), a
series of them is `Grown`, and `bmap_fills` says that `bmap` is one, or
fails because there are fewer free blocks than empty places. This holds of
files with holes as well.
-/
import Xv6Sume32.Fs.Inode

namespace Xv6Sume32.Fs

open Lib
open Function (update update_of_ne update_self)

variable {bn n i' : Nat} {r : Except FsPanic (Nat × FsState)}

-- ======== places

/-- The places of a file where block numbers are. -/
inductive Pos
  | root
  | mid (j : Nat)
  | data (bn : Nat)
deriving DecidableEq

section Places

variable (s : FsState) (i : Nat)

/-- The first-level index block. -/
def rootOf : Nat := (s.mem i).addrs ndirect

/-- The second-level index block `j`. -/
def midOf (j : Nat) : Nat := if rootOf s i = 0 then 0 else (s.blk (rootOf s i) j).toNat

/-- Data block `k` below the second-level index block `j`. -/
def leafOf (j k : Nat) : Nat := if midOf s i j = 0 then 0 else (s.blk (midOf s i j) k).toNat

/-- Data block `bn`. -/
def dataOf (bn : Nat) : Nat :=
  if bn < ndirect then (s.mem i).addrs bn
  else leafOf s i ((bn - ndirect) / nindirect) ((bn - ndirect) % nindirect)

/-- The block number at a place of an inode that is allocated. -/
def own (p : Pos) : Nat :=
  if (s.mem i).kind = .free then 0
  else
    match p with
    | .root => rootOf s i
    | .mid j => if j < nindirect then midOf s i j else 0
    | .data bn => if bn < maxFile then dataOf s i bn else 0

end Places

variable {q : Pos}

variable {s t : FsState} {i : Nat}

section Places

variable (hl : (s.mem i).kind ≠ .free)

include hl

theorem own_root : own s i .root = rootOf s i := if_neg hl

theorem own_mid {j : Nat} (hj : j < nindirect) : own s i (.mid j) = midOf s i j := by
  unfold own
  rw [if_neg hl]
  exact if_pos hj

theorem own_data (hbn : bn < maxFile) : own s i (.data bn) = dataOf s i bn := by
  unfold own
  rw [if_neg hl]
  exact if_pos hbn

theorem own_direct (hn : n < ndirect) : own s i (.data n) = (s.mem i).addrs n := by
  have hmax : n < maxFile := Nat.lt_of_lt_of_le hn (Nat.le_add_right _ _)
  rw [own_data hl hmax, dataOf, if_pos hn]

theorem own_leaf (hn : ndirect ≤ bn) (hmax : bn < maxFile) : own s i (.data bn)
      = leafOf s i ((bn - ndirect) / nindirect) ((bn - ndirect) % nindirect) := by
  rw [own_data hl hmax, dataOf, if_neg (Nat.not_lt.2 hn)]

theorem own_leafAt {j k : Nat} (hj : j < nindirect) (hk : k < nindirect) :
    own s i (.data (ndirect + nindirect * j + k)) = leafOf s i j k := by
  have hsub : ndirect + nindirect * j + k - ndirect = nindirect * j + k := by omega
  have hmul : nindirect * j + nindirect ≤ nindirect * nindirect := by
    rw [← Nat.mul_succ]
    exact Nat.mul_le_mul_left _ hj
  rw [own_leaf hl (by omega) (by unfold maxFile; omega), hsub,
    Nat.mul_add_div (by decide : 0 < nindirect), Nat.div_eq_of_lt hk, Nat.mul_add_mod,
    Nat.mod_eq_of_lt hk, Nat.add_zero]

end Places

theorem own_free (h : (s.mem i).kind = .free) (p : Pos) : own s i p = 0 := if_pos h

theorem own_mid_ge {j : Nat} (hj : ¬ j < nindirect) : own s i (.mid j) = 0 := by
  unfold own
  split
  · rfl
  · exact if_neg hj

theorem own_data_ge (hbn : ¬ bn < maxFile) : own s i (.data bn) = 0 := by
  unfold own
  split
  · rfl
  · exact if_neg hbn

section Congr

variable {j k : Nat}

theorem midOf_congr (hr : rootOf t i = rootOf s i)
    (hb : rootOf s i ≠ 0 → t.blk (rootOf s i) j = s.blk (rootOf s i) j) :
    midOf t i j = midOf s i j := by
  unfold midOf
  rw [hr]
  split
  · rfl
  · next h0 => rw [hb h0]

theorem leafOf_congr (hm : midOf t i j = midOf s i j)
    (hb : midOf s i j ≠ 0 → t.blk (midOf s i j) k = s.blk (midOf s i j) k) :
    leafOf t i j k = leafOf s i j k := by
  unfold leafOf
  rw [hm]
  split
  · rfl
  · next h0 => rw [hb h0]

/-- An inode owns the same blocks, `Q` excepted, when each kind of place
holds the same number. -/
theorem own_congr_off {Q : Pos → Prop} (hk : (t.mem i).kind = (s.mem i).kind)
    (hr : ¬ Q .root → rootOf t i = rootOf s i)
    (ha : ∀ n, n < ndirect → ¬ Q (.data n) → (t.mem i).addrs n = (s.mem i).addrs n)
    (hm : ∀ j, j < nindirect → ¬ Q (.mid j) → midOf t i j = midOf s i j)
    (hlf : ∀ j k, j < nindirect → k < nindirect → ¬ Q (.data (ndirect + nindirect * j + k)) →
      leafOf t i j k = leafOf s i j k) {p : Pos} (hp : ¬ Q p) : own t i p = own s i p := by
  unfold own
  rw [hk]
  split
  · rfl
  cases p with
  | root => exact hr hp
  | mid j =>
    dsimp only
    split
    · next hj => exact hm j hj hp
    · rfl
  | data bn =>
    dsimp only
    split
    · next hbn =>
      unfold dataOf
      split
      · next hn => exact ha bn hn hp
      · next hn =>
        have hpos : 0 < nindirect := by decide
        refine hlf _ _ (Nat.div_lt_of_lt_mul ?_) (Nat.mod_lt _ hpos) ?_
        · unfold maxFile at hbn
          omega
        · have : ndirect + nindirect * ((bn - ndirect) / nindirect)
              + (bn - ndirect) % nindirect = bn := by
            have := Nat.div_add_mod (bn - ndirect) nindirect
            omega
          rw [this]
          exact hp
    · rfl

/-- An inode owns the same blocks when its numbers and its index blocks
have not changed. -/
theorem own_congr (hk : (t.mem i).kind = (s.mem i).kind)
    (ha : ∀ n, n ≤ ndirect → (t.mem i).addrs n = (s.mem i).addrs n)
    (hroot : own s i .root ≠ 0 → t.blk (own s i .root) = s.blk (own s i .root))
    (hmid : ∀ j, own s i (.mid j) ≠ 0 →
      t.blk (own s i (.mid j)) = s.blk (own s i (.mid j))) (p : Pos) : own t i p = own s i p := by
  by_cases hl : (s.mem i).kind = .free
  · rw [own_free hl, own_free (hk.trans hl)]
  have hr : rootOf t i = rootOf s i := ha ndirect (Nat.le_refl _)
  have hm : ∀ j, midOf t i j = midOf s i j := by
    intro j
    refine midOf_congr hr fun h0 => ?_
    rw [own_root hl] at hroot
    rw [hroot h0]
  refine own_congr_off (Q := fun _ => False) hk (fun _ => hr)
    (fun n hn _ => ha n (Nat.le_of_lt hn)) (fun j _ _ => hm j) (fun j k hj _ _ => ?_) id
  refine leafOf_congr (hm j) fun h0 => ?_
  have hb := hmid j
  rw [own_mid hl hj] at hb
  rw [hb h0]

end Congr

-- ======== ownership

/-- Every block number occurs once, behind the metadata, and its bit is
set. -/
structure Owned (sb : Superblock) (s : FsState) : Prop where
  word : sb.size ≤ 2 ^ 32
  start : 0 < sb.dataStart
  metadata : ∀ b, b < sb.dataStart → s.used b = true
  place : ∀ i p, own s i p ≠ 0 →
    sb.dataStart ≤ own s i p ∧ own s i p < sb.size ∧ s.used (own s i p) = true
  unique : ∀ i p i' p', own s i p ≠ 0 → own s i p = own s i' p' → i = i' ∧ p = p'

/-- Block `b` is put at a place; everything else stays. -/
structure Attached (s t : FsState) (i : Nat) (p : Pos) (b : Nat) : Prop where
  used : t.used = update s.used b true
  here : own t i p = b
  there : ∀ i' p', (i', p') ≠ (i, p) → own t i' p' = own s i' p'
  empty : own s i p = 0
  disk : t.disk = s.disk
  mem : ∀ i', i' ≠ i → t.mem i' = s.mem i'
  self : ∃ addrs, t.mem i = { s.mem i with addrs := addrs }
  zero : t.blk b = fun _ => 0
  keep : ∀ i' bn, own s i' (.data bn) ≠ 0 →
    t.blk (own s i' (.data bn)) = s.blk (own s i' (.data bn))

variable {sb : Superblock} {b : Nat} {p : Pos}

/-- A block whose bit is clear is at no place. -/
theorem Owned.fresh (h : Owned sb s) (hb : s.used b = false) (i : Nat) (p : Pos)
    (hp : own s i p ≠ 0) : own s i p ≠ b := by
  intro he
  have := (h.place i p hp).2.2
  rw [he, hb] at this
  cases this

theorem Owned.unused_ge (h : Owned sb s) (hb : s.used b = false) : sb.dataStart ≤ b := by
  by_contra hlt
  rw [h.metadata b (Nat.not_le.1 hlt)] at hb
  cases hb

theorem Owned.attach (h : Owned sb s) (ha : Attached s t i p b) (hb : s.used b = false)
    (hlt : b < sb.size) : Owned sb t := by
  have hge := h.unused_ge hb
  refine ⟨h.word, h.start, fun c hc => ?_, fun i' p' hne => ?_, fun i1 p1 i2 p2 hne he => ?_⟩
  · rw [ha.used, update_of_ne (by omega)]
    exact h.metadata c hc
  · by_cases hip : (i', p') = (i, p)
    · cases hip
      rw [ha.here, ha.used, update_self]
      exact ⟨hge, hlt, rfl⟩
    · rw [ha.there i' p' hip] at hne ⊢
      obtain ⟨h1, h2, h3⟩ := h.place i' p' hne
      refine ⟨h1, h2, ?_⟩
      rw [ha.used, update_of_ne (h.fresh hb i' p' hne)]
      exact h3
  · by_cases hip1 : (i1, p1) = (i, p)
    · cases hip1
      by_cases hip2 : (i2, p2) = (i, p)
      · cases hip2
        exact ⟨rfl, rfl⟩
      · -- the new number is nowhere else
        rw [ha.here, ha.there i2 p2 hip2] at he
        rw [ha.here, he] at hne
        exact absurd he.symm (h.fresh hb i2 p2 hne)
    · rw [ha.there i1 p1 hip1] at hne he
      by_cases hip2 : (i2, p2) = (i, p)
      · cases hip2
        rw [ha.here] at he
        exact absurd he (h.fresh hb i1 p1 hne)
      · rw [ha.there i2 p2 hip2] at he
        exact h.unique i1 p1 i2 p2 hne he

-- ======== allocation

/-- The state in which `balloc` leaves the blocks when it returns `b`. -/
def FsState.take (s : FsState) (b : Nat) : FsState :=
  { s with
    used := update s.used b true
    blk := update s.blk b fun _ => 0 }

/-- The blocks that `balloc` may return. -/
def freeBlocks (sb : Superblock) (s : FsState) : Finset Nat :=
  (Finset.range sb.size).filter fun b => s.used b = false

theorem mem_freeBlocks : b ∈ freeBlocks sb s ↔ b < sb.size ∧ s.used b = false := by
  simp [freeBlocks]

/-- `balloc` returns a block that was free, and fails only if there is
none. -/
theorem balloc_spec (sb : Superblock) (s : FsState) :
    (∃ b, b ∈ freeBlocks sb s ∧ balloc sb s = .ok (b, s.take b))
      ∨ (freeBlocks sb s = ∅ ∧ balloc sb s = .error .outOfBlocks) := by
  unfold balloc
  cases hf : (List.range sb.size).find? fun b => !s.used b with
  | none =>
    refine Or.inr ⟨Finset.eq_empty_of_forall_notMem fun b hb => ?_, rfl⟩
    obtain ⟨hlt, hu⟩ := mem_freeBlocks.1 hb
    have := List.find?_eq_none.1 hf b (List.mem_range.2 hlt)
    simp [hu] at this
  | some b =>
    refine Or.inl ⟨b, mem_freeBlocks.2 ⟨?_, ?_⟩, rfl⟩
    · exact List.mem_range.1 (List.mem_of_find?_eq_some hf)
    · simpa using List.find?_some hf

theorem Attached.free (ha : Attached s t i p b) (sb : Superblock) :
    freeBlocks sb t = (freeBlocks sb s).erase b := by
  ext c
  rw [Finset.mem_erase, mem_freeBlocks, mem_freeBlocks, ha.used]
  by_cases hc : c = b
  · subst hc
    simp
  · rw [update_of_ne hc]
    simp [hc]

/-- The place of an entry of the inode. -/
def addrPos (n : Nat) : Pos := if n < ndirect then .data n else .root

theorem own_addrPos (hl : (s.mem i).kind ≠ .free) (hn : n ≤ ndirect) :
    own s i (addrPos n) = (s.mem i).addrs n := by
  unfold addrPos
  split
  · next h => exact own_direct hl h
  · next h => rw [own_root hl, rootOf, Nat.le_antisymm hn (Nat.not_lt.1 h)]

/-- A fresh block at an empty entry of the inode. -/
theorem Owned.setAddr (h : Owned sb s) (hl : (s.mem i).kind ≠ .free)
    (hn : n ≤ ndirect) (h0 : (s.mem i).addrs n = 0) (hb : s.used b = false) :
    Attached s ((s.take b).setAddr i n b) i (addrPos n) b := by
  have hblk : ∀ i' p', own s i' p' ≠ 0 →
      ((s.take b).setAddr i n b).blk (own s i' p') = s.blk (own s i' p') :=
    fun i' p' hne => update_of_ne (h.fresh hb i' p' hne) _ _
  have hself : ((s.take b).setAddr i n b).mem i
      = { s.mem i with addrs := update (s.mem i).addrs n b } := update_self i _ _
  have hother : ∀ i', i' ≠ i → ((s.take b).setAddr i n b).mem i' = s.mem i' :=
    fun i' hne => update_of_ne hne _ _
  refine ⟨rfl, ?_, fun i' p' hne => ?_, ?_, rfl, hother, ⟨_, hself⟩,
    update_self b _ _, fun i' bn => hblk i' _⟩
  · rw [own_addrPos (by rw [hself]; exact hl) hn, hself]
    exact update_self n _ _
  · by_cases hi : i' = i
    · subst hi
      have hp : p' ≠ addrPos n := fun he => hne (by rw [he])
      -- a first-level index block that is new has no entries
      have hm : ∀ j, midOf ((s.take b).setAddr i' n b) i' j = midOf s i' j := by
        intro j
        by_cases hroot : n = ndirect
        · subst hroot
          have hz : midOf s i' j = 0 := if_pos h0
          have hr : rootOf ((s.take b).setAddr i' ndirect b) i' = b := by
            unfold rootOf
            rw [hself]
            exact update_self ndirect b (s.mem i').addrs
          rw [hz, midOf, hr]
          split
          · rfl
          · show ((update s.blk b (fun _ => 0) b : Block) j).toNat = 0
            rw [update_self]
            rfl
        · refine midOf_congr ?_ fun hr => ?_
          · unfold rootOf
            rw [hself]
            exact update_of_ne (Ne.symm hroot) _ _
          · have := hblk i' .root
            rw [own_root hl] at this
            rw [this hr]
      refine own_congr_off (Q := fun p => p = addrPos n) (by rw [hself]) (fun hr => ?_)
        (fun m hm' hq => ?_) (fun j _ _ => hm j) (fun j k hj _ _ => ?_) hp
      · have hlt : n < ndirect := by
          by_contra hge
          exact hr (by rw [addrPos, if_neg hge])
        unfold rootOf
        rw [hself]
        exact update_of_ne (Nat.ne_of_gt hlt) _ _
      · rw [hself]
        refine update_of_ne (fun he => hq ?_) _ _
        rw [← he, addrPos, if_pos hm']
      · refine leafOf_congr (hm j) fun hne' => ?_
        have := hblk i' (.mid j)
        rw [own_mid hl hj] at this
        rw [this hne']
    · have hmem := hother i' hi
      exact own_congr (by rw [hmem]) (fun m _ => by rw [hmem]) (hblk i' _) (fun j => hblk i' _) p'
  · rw [own_addrPos hl hn, h0]

/-- The state after a fresh block is entered in index block `a`. -/
def FsState.enter (s : FsState) (a k b : Nat) : FsState :=
  { s.take b with
    blk := update (s.take b).blk a
      (update ((s.take b).blk a) k (BitVec.ofNat 32 b)) }

section Enter

variable {a k : Nat}

theorem enter_other {c : Nat} (hb : c ≠ b) (ha : c ≠ a) : (s.enter a k b).blk c = s.blk c :=
  (update_of_ne ha _ _).trans (update_of_ne hb _ _)

theorem enter_fresh (ha : b ≠ a) : (s.enter a k b).blk b = fun _ => 0 :=
  (update_of_ne ha _ _).trans (update_self b _ _)

theorem enter_entry (hb : b < 2 ^ 32) : ((s.enter a k b).blk a k).toNat = b := by
  have : (s.enter a k b).blk a k = BitVec.ofNat 32 b := by
    show update (s.take b).blk a _ a k = _
    rw [update_self, update_self]
  rw [this, BitVec.toNat_ofNat, Nat.mod_eq_of_lt hb]

theorem enter_entries {l : Nat} (ha : a ≠ b) (hl : l ≠ k) :
    (s.enter a k b).blk a l = s.blk a l := by
  show update (s.take b).blk a _ a l = _
  rw [update_self, update_of_ne hl]
  show update s.blk b _ a l = _
  rw [update_of_ne ha]

end Enter

/-- The parts of `Attached` that do not depend on which entry is set. -/
theorem Owned.enter (h : Owned sb s) {k : Nat} (hq : own s i q ≠ 0)
    (hidx : ∀ bn, q ≠ .data bn) (hb : s.used b = false) (h0 : own s i p = 0)
    (hhere : own (s.enter (own s i q) k b) i p = b)
    (hself : ∀ p', p' ≠ p → own (s.enter (own s i q) k b) i p' = own s i p') :
    Attached s (s.enter (own s i q) k b) i p b := by
  refine ⟨rfl, hhere, fun i' p' hne => ?_, h0, rfl, fun _ _ => rfl, ⟨_, rfl⟩,
    enter_fresh (Ne.symm (h.fresh hb i q hq)), fun i' bn hne => ?_⟩
  · by_cases hi : i' = i
    · subst hi
      exact hself p' fun he => hne (by rw [he])
    · have hkeep : ∀ p', own s i' p' ≠ 0 →
          (s.enter (own s i q) k b).blk (own s i' p') = s.blk (own s i' p') := fun p' hne' =>
        enter_other (h.fresh hb i' p' hne') fun he => hi (h.unique i' p' i q hne' he).1
      exact own_congr (s := s) (t := s.enter (own s i q) k b) rfl (fun _ _ => rfl) (hkeep _)
        (fun j => hkeep _) p'
  · exact enter_other (h.fresh hb i' _ hne) fun he =>
      hidx bn (h.unique i' _ i q hne he).2.symm

/-- A fresh block at an empty entry of the first-level index block. -/
theorem Owned.enter_root (h : Owned sb s) (hl : (s.mem i).kind ≠ .free) {j : Nat}
    (hj : j < nindirect) (hq : own s i .root ≠ 0) (h0 : own s i (.mid j) = 0)
    (hb : s.used b = false) (hlt : b < 2 ^ 32) :
    Attached s (s.enter (own s i .root) j b) i (.mid j) b := by
  have hne := h.fresh hb i .root hq
  have hroot : rootOf s i = own s i .root := (own_root hl).symm
  have hmid : midOf (s.enter (own s i .root) j b) i j = b := by
    unfold midOf
    show (if rootOf s i = 0 then 0 else _) = b
    rw [hroot, if_neg hq]
    show ((s.enter (own s i .root) j b).blk (rootOf s i) j).toNat = b
    rw [hroot]
    exact enter_entry hlt
  have hmids : ∀ j', j' ≠ j → midOf (s.enter (own s i .root) j b) i j' = midOf s i j' := by
    intro j' hj'
    refine midOf_congr rfl fun _ => ?_
    rw [hroot]
    exact enter_entries hne hj'
  have hhere : own (s.enter (own s i .root) j b) i (.mid j) = b :=
    (own_mid (s := s.enter _ j b) hl hj).trans hmid
  refine h.enter hq (fun bn => nofun) hb h0 hhere fun p' hp => ?_
  refine own_congr_off (s := s) (t := s.enter _ j b) (Q := fun p' => p' = .mid j) rfl (fun _ => rfl) (fun _ _ _ => rfl)
    (fun j' _ hq' => hmids j' fun he => hq' (by rw [he])) (fun j' k hj' _ _ => ?_) hp
  by_cases he : j' = j
  · -- the new block has no entries
    subst he
    rw [own_mid hl hj] at h0
    have hz : leafOf s i j' k = 0 := if_pos h0
    rw [hz]
    unfold leafOf
    rw [hmid]
    split
    · rfl
    · rw [enter_fresh (Ne.symm hne)]
      rfl
  · refine leafOf_congr (hmids j' he) fun hm => ?_
    rw [← own_mid hl hj'] at hm ⊢
    rw [enter_other (h.fresh hb i _ hm) fun he => nomatch (h.unique i _ i .root hm he).2]

/-- A fresh block at an empty entry of a second-level index block. -/
theorem Owned.enter_mid (h : Owned sb s) (hl : (s.mem i).kind ≠ .free) {j k : Nat}
    (hj : j < nindirect) (hk : k < nindirect) (hq : own s i (.mid j) ≠ 0)
    (h0 : own s i (.data (ndirect + nindirect * j + k)) = 0) (hb : s.used b = false)
    (hlt : b < 2 ^ 32) :
    Attached s (s.enter (own s i (.mid j)) k b) i (.data (ndirect + nindirect * j + k)) b := by
  have hne := h.fresh hb i _ hq
  have hmid : midOf s i j = own s i (.mid j) := (own_mid hl hj).symm
  have hmids : ∀ j', midOf (s.enter (own s i (.mid j)) k b) i j' = midOf s i j' := by
    intro j'
    refine midOf_congr rfl fun hr => ?_
    rw [← own_root hl] at hr ⊢
    rw [enter_other (h.fresh hb i _ hr) fun he => nomatch (h.unique i .root i (.mid j) hr he).2]
  have hleaf : leafOf (s.enter (own s i (.mid j)) k b) i j k = b := by
    unfold leafOf
    rw [hmids, hmid, if_neg hq]
    exact enter_entry hlt
  have hhere := (own_leafAt (s := s.enter (own s i (.mid j)) k b) hl hj hk).trans hleaf
  refine h.enter hq (fun bn => nofun) hb h0 hhere fun p' hp => ?_
  refine own_congr_off (s := s) (t := s.enter _ k b)
    (Q := fun p' => p' = .data (ndirect + nindirect * j + k)) rfl
    (fun _ => rfl) (fun _ _ _ => rfl) (fun j' _ _ => hmids j') (fun j' k' hj' hk' hq' => ?_) hp
  refine leafOf_congr (hmids j') fun hm => ?_
  rw [← own_mid hl hj'] at hm ⊢
  by_cases he : j' = j
  · subst he
    exact enter_entries hne fun hk => hq' (by rw [hk])
  · rw [enter_other (h.fresh hb i _ hm) fun hu => he ?_]
    have := (h.unique i _ i _ hm hu).2
    injection this

-- ======== growing

/-- Fresh blocks are put at empty places of an inode, one after the
other. -/
inductive Grown (sb : Superblock) (i : Nat) (s : FsState) : FsState → List Pos → Prop
  | refl : Grown sb i s s []
  | snoc {t u : FsState} {ps : List Pos} {p : Pos} {b : Nat} : Grown sb i s t ps →
      Attached t u i p b → b ∈ freeBlocks sb t → Grown sb i s u (ps ++ [p])

section Grown

variable {u : FsState} {ps qs : List Pos}

theorem Attached.grown (ha : Attached s t i p b) (hb : b ∈ freeBlocks sb s) :
    Grown sb i s t [p] := .snoc .refl ha hb

theorem Grown.trans (h₁ : Grown sb i s t ps) (h₂ : Grown sb i t u qs) :
    Grown sb i s u (ps ++ qs) := by
  induction h₂ with
  | refl => rwa [List.append_nil]
  | snoc _ ha hb ih =>
    rw [← List.append_assoc]
    exact .snoc ih ha hb

theorem Grown.nil (h : Grown sb i s t []) : t = s := by
  generalize hps : ([] : List Pos) = ps at h
  cases h with
  | refl => rfl
  | snoc _ _ _ => exact absurd hps (List.append_ne_nil_of_right_ne_nil _ (List.cons_ne_nil _ _)).symm

theorem Grown.owned (h : Grown sb i s t ps) (ho : Owned sb s) : Owned sb t := by
  induction h with
  | refl => exact ho
  | snoc _ ha hb ih => exact ih.attach ha (mem_freeBlocks.1 hb).2 (mem_freeBlocks.1 hb).1

theorem Grown.card (h : Grown sb i s t ps) :
    (freeBlocks sb t).card + ps.length = (freeBlocks sb s).card := by
  induction h with
  | refl => rfl
  | snoc _ ha hb ih =>
    have := Finset.card_erase_add_one hb
    rw [← ha.free sb] at this
    rw [← ih, ← this, List.length_append, List.length_singleton]
    omega

theorem Grown.disk (h : Grown sb i s t ps) : t.disk = s.disk := by
  induction h with
  | refl => rfl
  | snoc _ ha _ ih => exact ha.disk.trans ih

theorem Grown.mem (h : Grown sb i s t ps) (hne : i' ≠ i) : t.mem i' = s.mem i' := by
  induction h with
  | refl => rfl
  | snoc _ ha _ ih => exact (ha.mem i' hne).trans ih

theorem Grown.self (h : Grown sb i s t ps) :
    ∃ addrs, t.mem i = { s.mem i with addrs := addrs } := by
  induction h with
  | refl => exact ⟨_, rfl⟩
  | snoc _ ha _ ih =>
    obtain ⟨_, ht⟩ := ih
    obtain ⟨_, hu⟩ := ha.self
    rw [ht] at hu
    exact ⟨_, hu⟩

theorem Grown.live (h : Grown sb i s t ps) (i' : Nat) : (t.mem i').kind = (s.mem i').kind := by
  by_cases hi : i' = i
  · subst hi
    obtain ⟨_, ht⟩ := h.self
    rw [ht]
  · rw [h.mem hi]

/-- Places not on the list keep their numbers. -/
theorem Grown.own_other (h : Grown sb i s t ps) (hp : i' = i → p ∉ ps) :
    own t i' p = own s i' p := by
  induction h with
  | refl => rfl
  | snoc _ ha _ ih =>
    refine (ha.there i' p fun he => ?_).trans (ih fun hi hm => ?_)
    · cases he
      exact hp rfl (List.mem_append_right _ (List.mem_singleton.2 rfl))
    · exact hp hi (List.mem_append_left _ hm)

/-- Those on the list were empty and are not. -/
theorem Grown.own_new (h : Grown sb i s t ps) (ho : Owned sb s) (hp : p ∈ ps) :
    own s i p = 0 ∧ own t i p ≠ 0 := by
  induction h with
  | refl => cases hp
  | @snoc t u ps q b hg ha hb ih =>
    have hpos : b ≠ 0 := by
      have := (hg.owned ho).unused_ge (mem_freeBlocks.1 hb).2
      have := ho.start
      omega
    by_cases hm : p ∈ ps
    · refine ⟨(ih hm).1, ?_⟩
      by_cases hq : p = q
      · rw [hq, ha.here]
        exact hpos
      · rw [ha.there i p fun he => hq (by injection he)]
        exact (ih hm).2
    · rcases List.mem_append.1 hp with hp' | hp'
      · exact absurd hp' hm
      · obtain rfl := List.mem_singleton.1 hp'
        refine ⟨?_, by rw [ha.here]; exact hpos⟩
        rw [← hg.own_other fun _ => hm]
        exact ha.empty

/-- A place that has a block keeps it. -/
theorem Grown.own_old (h : Grown sb i s t ps) (ho : Owned sb s)
    (hp : own s i' p ≠ 0) : own t i' p = own s i' p :=
  h.own_other fun hi hm => hp (by rw [hi]; exact (h.own_new ho hm).1)

theorem Grown.keep (h : Grown sb i s t ps) (ho : Owned sb s)
    (hp : own s i' (.data bn) ≠ 0) : t.blk (own s i' (.data bn)) = s.blk (own s i' (.data bn)) := by
  induction h with
  | refl => rfl
  | snoc hg ha _ ih =>
    have hold := hg.own_old ho hp
    have := ha.keep i' bn (by rw [hold]; exact hp)
    rw [hold] at this
    rw [this, ih]

/-- A new data block is zero. -/
theorem Grown.zero (h : Grown sb i s t ps) (ho : Owned sb s)
    (hp : .data bn ∈ ps) : t.blk (own t i (.data bn)) = fun _ => 0 := by
  induction h with
  | refl => cases hp
  | @snoc t u ps q b hg ha hb ih =>
    by_cases hq : Pos.data bn = q
    · rw [hq, ha.here, ha.zero]
    · have hm : .data bn ∈ ps := by
        rcases List.mem_append.1 hp with hm | hm
        · exact hm
        · exact absurd (List.mem_singleton.1 hm) hq
      rw [ha.there i _ fun he => hq (by injection he), ha.keep i bn (hg.own_new ho hm).2]
      exact ih hm

/-- The places of a list that are empty. -/
def missing (s : FsState) (i : Nat) (ps : List Pos) : List Pos :=
  ps.filter fun p => own s i p = 0

theorem mem_missing : p ∈ missing s i ps ↔ p ∈ ps ∧ own s i p = 0 := by
  simp [missing]

theorem Grown.own_iff (h : Grown sb i s t (missing s i ps)) (ho : Owned sb s) :
    own t i p ≠ 0 ↔ own s i p ≠ 0 ∨ p ∈ ps := by
  by_cases hm : p ∈ missing s i ps
  · exact iff_of_true (h.own_new ho hm).2 (Or.inr (mem_missing.1 hm).1)
  · rw [h.own_other fun _ => hm]
    refine ⟨Or.inl, fun hor => hor.elim id fun hp h0 => hm (mem_missing.2 ⟨hp, h0⟩)⟩

/-- A list of places is filled, and the number at the last one returned;
or there are not blocks enough. -/
def Fills (sb : Superblock) (s : FsState) (i : Nat) (ps : List Pos) (p : Pos)
    (r : Except FsPanic (Nat × FsState)) : Prop :=
  (∃ t, r = .ok (own t i p, t) ∧ Grown sb i s t (missing s i ps))
    ∨ (r = .error .outOfBlocks ∧ (freeBlocks sb s).card < (missing s i ps).length)

/-- One place after others. -/
theorem Fills.bind {f : Nat × FsState → Except FsPanic (Nat × FsState)} (h : Fills sb s i ps p r)
    (hq : q ∉ ps)
    (hf : ∀ t, Grown sb i s t (missing s i ps) → Fills sb t i [q] q (f (own t i p, t))) :
    Fills sb s i (ps ++ [q]) q (r >>= f) := by
  have hcat : missing s i (ps ++ [q]) = missing s i ps ++ missing s i [q] := List.filter_append ..
  rcases h with ⟨t, rfl, hg⟩ | ⟨rfl, hlt⟩
  · have hmiss : missing t i [q] = missing s i [q] := by
      have : own t i q = own s i q := hg.own_other fun _ hm => hq (mem_missing.1 hm).1
      simp only [missing, List.filter_cons, List.filter_nil, this]
    rcases hf t hg with ⟨u, hu, hg'⟩ | ⟨hu, hlt⟩
    · refine Or.inl ⟨u, hu, ?_⟩
      rw [hcat, ← hmiss]
      exact hg.trans hg'
    · refine Or.inr ⟨hu, ?_⟩
      have := hg.card
      rw [hcat, ← hmiss, List.length_append]
      omega
  · refine Or.inr ⟨rfl, ?_⟩
    rw [hcat, List.length_append]
    omega

/-- An allocation, or nothing if the place is filled. -/
theorem Fills.one {g : Nat → FsState} (hold : own s i p ≠ 0 → r = .ok (own s i p, s))
    (hnew : own s i p = 0 → r = balloc sb s >>= fun x => .ok (x.1, g x.1))
    (ha : own s i p = 0 → ∀ b, b ∈ freeBlocks sb s → Attached s (g b) i p b) :
    Fills sb s i [p] p r := by
  by_cases h0 : own s i p = 0
  · have hmiss : missing s i [p] = [p] := by simp [missing, h0]
    rcases balloc_spec sb s with ⟨b, hb, hbal⟩ | ⟨hnone, hbal⟩
    · have hat := ha h0 b hb
      refine Or.inl ⟨g b, ?_, ?_⟩
      · rw [hnew h0, hbal, hat.here]
        rfl
      · rw [hmiss]
        exact hat.grown hb
    · refine Or.inr ⟨by rw [hnew h0, hbal]; rfl, ?_⟩
      rw [hmiss, hnone]
      exact Nat.one_pos
  · refine Or.inl ⟨s, hold h0, ?_⟩
    have hmiss : missing s i [p] = [] := by simp [missing, h0]
    rw [hmiss]
    exact .refl

end Grown

theorem addrAlloc_fills (h : Owned sb s) (hl : (s.mem i).kind ≠ .free)
    (hn : n ≤ ndirect) : Fills sb s i [addrPos n] (addrPos n) (addrAlloc sb s i n) := by
  have hown := own_addrPos hl hn
  refine Fills.one (g := fun b => (s.take b).setAddr i n b) (fun hne => ?_) (fun h0 => ?_)
    fun h0 b hb => ?_
  · rw [hown] at hne ⊢
    exact if_neg hne
  · rw [hown] at h0
    unfold addrAlloc
    rw [if_pos h0]
    rcases balloc_spec sb s with ⟨b, _, hbal⟩ | ⟨_, hbal⟩ <;> rw [hbal] <;> rfl
  · rw [hown] at h0
    exact h.setAddr hl hn h0 (mem_freeBlocks.1 hb).2

/-- An entry of an index block. -/
theorem entryAlloc_fills (h : Owned sb s) {k : Nat} (hown : own s i p = (s.blk (own s i q) k).toNat)
    (ha : own s i p = 0 → ∀ b, s.used b = false → b < 2 ^ 32 →
      Attached s (s.enter (own s i q) k b) i p b) :
    Fills sb s i [p] p (entryAlloc sb s (own s i q) k) := by
  refine Fills.one (g := fun b => s.enter (own s i q) k b) (fun hne => ?_) (fun h0 => ?_)
    fun h0 b hb => ha h0 b (mem_freeBlocks.1 hb).2
      (Nat.lt_of_lt_of_le (mem_freeBlocks.1 hb).1 h.word)
  · rw [hown] at hne ⊢
    exact if_neg hne
  · rw [hown] at h0
    unfold entryAlloc
    rw [if_pos h0]
    rcases balloc_spec sb s with ⟨b, _, hbal⟩ | ⟨_, hbal⟩ <;> rw [hbal] <;> rfl

/-- The places on the way to a data block. -/
def path (bn : Nat) : List Pos :=
  if bn < ndirect then [.data bn]
  else [.root, .mid ((bn - ndirect) / nindirect), .data bn]

theorem mid_lt (hd : ndirect ≤ bn) (hbn : bn < maxFile) :
    (bn - ndirect) / nindirect < nindirect := by
  refine Nat.div_lt_of_lt_mul ?_
  unfold maxFile at hbn
  omega

theorem root_fills (h : Owned sb s) (hl : (s.mem i).kind ≠ .free) :
    Fills sb s i [.root] .root (addrAlloc sb s i ndirect) := by
  have hroot := addrAlloc_fills h hl (Nat.le_refl ndirect)
  rwa [addrPos, if_neg (Nat.lt_irrefl _)] at hroot

/-- An entry of the first-level index block. -/
theorem rootEntry_fills (h : Owned sb s) (hl : (s.mem i).kind ≠ .free) {j : Nat}
    (hj : j < nindirect) (hr : own s i .root ≠ 0) :
    Fills sb s i [.mid j] (.mid j) (entryAlloc sb s (own s i .root) j) := by
  refine entryAlloc_fills h ?_ fun h0 b hb hb' => h.enter_root hl hj hr h0 hb hb'
  rw [own_root hl] at hr
  rw [own_mid hl hj, own_root hl, midOf, if_neg hr]

theorem mid_fills (h : Owned sb s) (hl : (s.mem i).kind ≠ .free) {j : Nat} (hj : j < nindirect) :
    Fills sb s i [.root, .mid j] (.mid j)
      (addrAlloc sb s i ndirect >>= fun x => entryAlloc sb x.2 x.1 j) :=
  (root_fills h hl).bind (by simp) fun _ hg => rootEntry_fills (hg.owned h)
    (by rw [hg.live]; exact hl) hj ((hg.own_iff h).2 (Or.inr (List.mem_singleton.2 rfl)))

/-- An entry of a second-level one. -/
theorem midEntry_fills (h : Owned sb s) (hl : (s.mem i).kind ≠ .free)
    (hd : ndirect ≤ bn) (hbn : bn < maxFile)
    (hm : own s i (.mid ((bn - ndirect) / nindirect)) ≠ 0) : Fills sb s i [.data bn] (.data bn)
      (entryAlloc sb s (own s i (.mid ((bn - ndirect) / nindirect)))
        ((bn - ndirect) % nindirect)) := by
  have hj := mid_lt hd hbn
  have hk : (bn - ndirect) % nindirect < nindirect := Nat.mod_lt _ (by decide)
  have hsplit : ndirect + nindirect * ((bn - ndirect) / nindirect)
      + (bn - ndirect) % nindirect = bn := by
    have := Nat.div_add_mod (bn - ndirect) nindirect
    omega
  refine entryAlloc_fills (q := .mid _) h ?_ fun h0 b hb hb' => ?_
  · rw [own_mid hl hj] at hm
    rw [own_leaf hl hd hbn, own_mid hl hj, leafOf, if_neg hm]
  · have := h.enter_mid hl hj hk hm (by rw [hsplit]; exact h0) hb hb'
    rwa [hsplit] at this

/-- `bmap` fills the way to a data block and returns its number. -/
theorem bmap_fills (h : Owned sb s) (hl : (s.mem i).kind ≠ .free)
    (hbn : bn < maxFile) : Fills sb s i (path bn) (.data bn) (bmap sb s i bn) := by
  unfold path bmap
  by_cases hd : bn < ndirect
  · rw [if_pos hd, if_pos hd]
    have := addrAlloc_fills h hl (Nat.le_of_lt hd)
    rwa [addrPos, if_pos hd] at this
  have hle := Nat.not_lt.1 hd
  have hj := mid_lt hle hbn
  rw [if_neg hd, if_neg hd, if_pos hj]
  have hleaf := (mid_fills h hl hj).bind (q := .data bn)
    (f := fun x => entryAlloc sb x.2 x.1 ((bn - ndirect) % nindirect)) (by simp) fun t hg =>
      midEntry_fills (hg.owned h) (by rw [hg.live]; exact hl) hle hbn
        ((hg.own_iff h).2 (Or.inr (by simp)))
  rwa [bind_assoc] at hleaf

/-- The block that is found is a used data block. -/
theorem Fills.place {ps : List Pos} {p : Pos} {x : Nat} {t : FsState} (h : Owned sb s)
    (hp : p ∈ ps) (hf : Fills sb s i ps p (.ok (x, t))) :
    Owned sb t ∧ x = own t i p ∧ (t.mem i).kind = (s.mem i).kind ∧
      sb.dataStart ≤ x ∧ x < sb.size ∧ t.used x = true := by
  rcases hf with ⟨u, hu, hg⟩ | ⟨hr, _⟩
  · cases hu
    have ht := hg.owned h
    exact ⟨ht, rfl, hg.live i, ht.place i p ((hg.own_iff h).2 (Or.inr hp))⟩
  · cases hr

/-- Beyond the largest file it panics. -/
theorem bmap_range (hbn : maxFile ≤ bn) : bmap sb s i bn = .error .bmapRange := by
  have hd : ¬ bn < ndirect := by
    unfold maxFile at hbn
    omega
  have hj : ¬ (bn - ndirect) / nindirect < nindirect := by
    rw [Nat.not_lt, Nat.le_div_iff_mul_le (by decide)]
    unfold maxFile at hbn
    omega
  unfold bmap
  rw [if_neg hd, if_neg hj]

end Xv6Sume32.Fs
