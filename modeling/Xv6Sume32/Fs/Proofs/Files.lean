/-
Files are byte arrays.

# Contents

`fileByte` is the byte of a file at an offset, 0 where the file has no
block. A block that is allocated is cleared, so allocation does not show
(`Grown.fileByte`); writing a part of a data block is writing that part of
the file, and of no other, since a block has one place
(`Owned.fileByte_setBlk`). The loop of `writei` then writes its data piece
by piece.

# Files without holes

`writei` adds blocks at the end only: a file has the blocks its size asks
for and the index blocks these need, and no others (`Shaped`). That says
how many blocks a write takes (`blocksFor`), and that reading allocates
none.

# Deleting them

The data blocks from the thirteenth on are entries of second-level index
blocks, which `itrunc` does not read: the file is freed as a whole exactly
if it has no such block.
-/
import Xv6Sume32.Fs.Proofs.Blocks
import Xv6Sume32.Lib.Splice

namespace Xv6Sume32.Fs

open Lib

variable {sb : Superblock} {s t u : FsState} {i : Nat}

variable {ps : List Pos} {p : Pos} {n nb : Nat} {devsw : Devsw} {op : Op}

-- ======== the bytes

theorem byteAt_ofBytes (f : Nat → Byte) (k : Nat) : byteAt (ofBytes f) k = f k := by
  have hk : 4 * (k / 4) + k % 4 = k := Nat.div_add_mod k 4
  have := byteOf_ofLe (fun j => f (4 * (k / 4) + j)) (Nat.mod_lt k (by decide : 0 < 4))
  rw [hk] at this
  exact this

theorem byteAt_putBytes (b : Block) (o : Nat) (src : List Byte) (k : Nat) :
    byteAt (putBytes b o src) k = overwrite (byteAt b) o src k := by
  rw [putBytes, byteAt_ofBytes, overwrite]
  by_cases hle : o ≤ k
  · rw [if_pos hle]
    by_cases hlt : k < o + src.length
    · have hidx : k - o < src.length := by omega
      rw [if_pos ⟨hle, hlt⟩, List.getD_eq_getElem?_getD, List.getElem?_eq_getElem hidx]
      rfl
    · rw [if_neg fun h => hlt h.2, List.getElem?_eq_none (by omega)]
      rfl
  · rw [if_neg hle, if_neg fun h => hle h.1]

/-- The byte of a file at an offset, 0 where it has no block. -/
def fileByte (s : FsState) (i o : Nat) : Byte :=
  if own s i (.data (o / bsize)) = 0 then 0
  else byteAt (s.blk (own s i (.data (o / bsize)))) (o % bsize)

/-- A file has the same bytes when it has the same blocks and these have
not changed. -/
theorem fileByte_congr {o : Nat} (ho : own t i (.data (o / bsize)) = own s i (.data (o / bsize)))
    (hb : own s i (.data (o / bsize)) ≠ 0 →
      t.blk (own s i (.data (o / bsize))) = s.blk (own s i (.data (o / bsize)))) :
    fileByte t i o = fileByte s i o := by
  unfold fileByte
  rw [ho]
  split
  · rfl
  · next h0 => rw [hb h0]

/-- Allocation does not show. -/
theorem Grown.fileByte (h : Grown sb i s t ps) (ho : Owned sb s) (i' o : Nat) :
    fileByte t i' o = fileByte s i' o := by
  by_cases h0 : own s i' (.data (o / bsize)) = 0
  · by_cases hp : i' = i ∧ .data (o / bsize) ∈ ps
    · obtain ⟨rfl, hp⟩ := hp
      unfold Fs.fileByte
      rw [if_neg (h.own_new ho hp).2, if_pos h0, h.zero ho hp]
      simp [byteAt, byteOf]
    · refine fileByte_congr (h.own_other fun hi hm => hp ⟨hi, hm⟩) fun hne => absurd h0 hne
  · exact fileByte_congr (h.own_old ho h0) fun _ => h.keep ho h0

section SetBlk

variable (h : Owned sb s) {bn r : Nat} {src : List Byte} (hne : own s i (.data bn) ≠ 0)
  (hr : r + src.length ≤ bsize)

include h

theorem Owned.fileByte_other {i' : Nat} (hi : i' ≠ i) (x : Block) (o : Nat) :
    fileByte (s.setBlk (own s i (.data bn)) x) i' o = fileByte s i' o := by
  refine fileByte_congr (h.own_setBlk bn x i' _) fun h0 => Function.update_of_ne (fun he => ?_) _ _
  exact hi (h.unique i' _ i _ h0 he).1

include hne hr

/-- Writing a part of a data block is writing that part of the file. -/
theorem Owned.fileByte_setBlk :
    fileByte (s.setBlk (own s i (.data bn)) (putBytes (s.blk (own s i (.data bn))) r src)) i
      = overwrite (fileByte s i) (bn * bsize + r) src := by
  have hpos : 0 < bsize := by decide
  funext o
  have ho : bsize * (o / bsize) + o % bsize = o := Nat.div_add_mod o bsize
  have hm : o % bsize < bsize := Nat.mod_lt o hpos
  by_cases hbn : o / bsize = bn
  · have hown := h.own_setBlk (i := i) bn (putBytes (s.blk (own s i (.data bn))) r src) i (.data bn)
    rw [hbn, Nat.mul_comm] at ho
    have hblk : (s.setBlk (own s i (.data bn)) (putBytes (s.blk (own s i (.data bn))) r src)).blk
        (own s i (.data bn)) = putBytes (s.blk (own s i (.data bn))) r src :=
      Function.update_self _ _ _
    have hold : fileByte s i o = byteAt (s.blk (own s i (.data bn))) (o % bsize) := by
      unfold fileByte
      rw [hbn, if_neg hne]
    rw [fileByte, hbn, hown, if_neg hne, hblk, byteAt_putBytes, overwrite, overwrite, hold]
    have hiff : r ≤ o % bsize ↔ bn * bsize + r ≤ o := by omega
    have hidx : o % bsize - r = o - (bn * bsize + r) := by omega
    rw [hidx]
    simp only [hiff]
  · have hsame : fileByte (s.setBlk (own s i (.data bn))
        (putBytes (s.blk (own s i (.data bn))) r src)) i o = fileByte s i o := by
      refine fileByte_congr (h.own_setBlk bn _ i _) fun h0 => Function.update_of_ne (fun he => ?_) _ _
      have := (h.unique i _ i _ h0 he).2
      injection this with this
      exact hbn this
    rw [hsame]
    rcases Nat.lt_or_gt_of_ne hbn with hlt | hgt
    · have : bsize * (o / bsize + 1) ≤ bsize * bn := Nat.mul_le_mul_left _ hlt
      rw [overwrite_before]
      rw [Nat.mul_add, Nat.mul_comm bsize bn] at this
      omega
    · have : bsize * (bn + 1) ≤ bsize * (o / bsize) := Nat.mul_le_mul_left _ hgt
      rw [overwrite_after]
      rw [Nat.mul_add, Nat.mul_comm bsize bn] at this
      omega

end SetBlk

-- ======== the shape

/-- The first block of a file that needs a place. -/
def Pos.first : Pos → Nat
  | .root => ndirect
  | .mid j => ndirect + nindirect * j
  | .data bn => bn

/-- The first `nb` blocks of a file are there, with the index blocks they
need, and no others. -/
structure Shaped (s : FsState) (i nb : Nat) : Prop where
  le : nb ≤ maxFile
  iff : ∀ p, own s i p ≠ 0 ↔ p.first < nb

theorem first_le {bn : Nat} (hp : p ∈ path bn) : p.first ≤ bn := by
  unfold path at hp
  split at hp
  · rw [List.mem_singleton.1 hp]
    exact Nat.le_refl _
  · next hd =>
    have := Nat.mul_div_le (bn - ndirect) nindirect
    simp only [List.mem_cons, List.not_mem_nil, or_false] at hp
    rcases hp with rfl | rfl | rfl <;> simp only [Pos.first] <;> omega

theorem mem_path {bn : Nat} (hp : p.first = bn) : p ∈ path bn := by
  subst hp
  unfold path
  cases p with
  | root => simp [Pos.first]
  | mid j =>
    have hj : (ndirect + nindirect * j - ndirect) / nindirect = j := by
      rw [Nat.add_sub_cancel_left, Nat.mul_div_cancel_left _ (by decide)]
    simp only [Pos.first, hj]
    rw [if_neg (by omega)]
    simp
  | data bn =>
    by_cases hd : bn < ndirect <;> simp [Pos.first, hd]

/-- The places to fill for the next block. -/
def nextPath (nb : Nat) : List Pos := (path nb).filter fun p => p.first = nb

/-- The number of blocks of a file with `nb` data blocks. -/
def blocksFor (nb : Nat) : Nat :=
  nb + if nb ≤ ndirect then 0 else 1 + (nb - ndirect + (nindirect - 1)) / nindirect

theorem blocksFor_succ (nb : Nat) : blocksFor (nb + 1) = blocksFor nb + (nextPath nb).length := by
  unfold blocksFor nextPath path
  have hn : nindirect = 128 := rfl
  have hd : ndirect = 12 := rfl
  rw [hn, hd]
  by_cases h : nb < 12
  · rw [if_pos h, if_pos (by omega), if_pos (by omega)]
    simp [Pos.first]
  · rw [if_neg h, if_neg (by omega)]
    simp only [List.filter_cons, Pos.first, List.filter_nil, hd, hn, decide_eq_true_eq]
    by_cases h12 : nb = 12
    · subst h12
      simp
    · rw [if_neg (by omega : ¬ nb ≤ 12), if_neg (by omega : ¬ 12 = nb)]
      by_cases hm : (nb - 12) % 128 = 0
      · rw [if_pos (by omega : 12 + 128 * ((nb - 12) / 128) = nb)]
        simp
        omega
      · rw [if_neg (by omega : ¬ 12 + 128 * ((nb - 12) / 128) = nb)]
        simp
        omega

theorem blocksFor_mono {m : Nat} (h : m ≤ n) : blocksFor m ≤ blocksFor n := by
  induction n, h using Nat.le_induction with
  | base => exact Nat.le_refl _
  | succ n _ ih =>
    rw [blocksFor_succ]
    omega

theorem Shaped.missing_old {bn : Nat} (hs : Shaped s i nb) (hbn : bn < nb) :
    missing s i (path bn) = [] := by
  refine List.filter_eq_nil_iff.2 fun p hp => ?_
  have := (hs.iff p).2 (Nat.lt_of_le_of_lt (first_le hp) hbn)
  simpa using this

theorem Shaped.missing_next (hs : Shaped s i nb) :
    missing s i (path nb) = nextPath nb := by
  refine List.filter_congr fun p hp => ?_
  have hle := first_le hp
  have hiff := hs.iff p
  by_cases h0 : own s i p = 0
  · have : ¬ p.first < nb := fun h => hiff.2 h h0
    simp [h0, show p.first = nb by omega]
  · have := hiff.1 h0
    simp [h0, show p.first ≠ nb by omega]

/-- What `bmap` does to a file without holes, for a block of it or the
next one. -/
theorem Shaped.bmap (h : Owned sb s) (hl : (s.mem i).kind ≠ .free) {bn : Nat}
    (hs : Shaped s i nb) (hbn : bn ≤ nb) (hmax : bn < maxFile) :
    (∃ t ps, Fs.bmap sb s i bn = .ok (own t i (.data bn), t) ∧ Grown sb i s t ps ∧
        blocksFor nb + ps.length = blocksFor (max nb (bn + 1)) ∧
        Shaped t i (max nb (bn + 1)) ∧ (bn < nb → t = s))
      ∨ (Fs.bmap sb s i bn = .error .outOfBlocks ∧
        blocksFor nb + (freeBlocks sb s).card < blocksFor (max nb (bn + 1))) := by
  rcases Nat.lt_or_eq_of_le hbn with hlt | rfl
  · -- the block is there
    have hmiss := hs.missing_old hlt
    rw [Nat.max_eq_left hlt]
    rcases bmap_fills h hl hmax with ⟨t, hr, hg⟩ | ⟨_, hc⟩
    · rw [hmiss] at hg
      obtain rfl : t = s := hg.nil
      exact Or.inl ⟨t, [], hr, hg, rfl, hs, fun _ => rfl⟩
    · rw [hmiss] at hc
      exact absurd hc (Nat.not_lt_zero _)
  · have hmiss := hs.missing_next
    rw [Nat.max_eq_right (Nat.le_succ bn), blocksFor_succ]
    rcases bmap_fills h hl hmax with ⟨t, hr, hg⟩ | ⟨hr, hc⟩
    · refine Or.inl ⟨t, _, hr, hg, by rw [hmiss], ⟨hmax, fun p => ?_⟩,
        fun hlt => absurd hlt (Nat.lt_irrefl _)⟩
      rw [hg.own_iff h, hs.iff]
      refine ⟨fun hor => ?_, fun hlt => ?_⟩
      · rcases hor with hlt | hp
        · exact Nat.lt_succ_of_lt hlt
        · exact Nat.lt_succ_of_le (first_le hp)
      · rcases Nat.lt_succ_iff_lt_or_eq.1 hlt with hlt | he
        · exact Or.inl hlt
        · exact Or.inr (mem_path he)
    · refine Or.inr ⟨hr, ?_⟩
      rw [hmiss] at hc
      omega

-- ======== the loops

/-- The number of blocks for a number of bytes. -/
def nblocks (size : Nat) : Nat := (size + (bsize - 1)) / bsize

theorem nblocks_le {size : Nat} : nblocks size ≤ nb ↔ size ≤ nb * bsize := by
  unfold nblocks
  have hb : bsize = 512 := rfl
  rw [hb]
  omega

theorem lt_nblocks {off size : Nat} (h : off < size) : off / bsize < nblocks size := by
  unfold nblocks
  have hb : bsize = 512 := rfl
  rw [hb]
  omega

theorem Shaped.of_own (hs : Shaped s i nb) (ho : ∀ p, own t i p = own s i p) :
    Shaped t i nb := ⟨hs.le, fun p => by rw [ho]; exact hs.iff p⟩

theorem Shaped.bmap_old (h : Owned sb s) (hl : (s.mem i).kind ≠ .free) {bn : Nat}
    (hs : Shaped s i nb) (hbn : bn < nb) : Fs.bmap sb s i bn = .ok (own s i (.data bn), s) := by
  rcases hs.bmap h hl (Nat.le_of_lt hbn) (Nat.lt_of_lt_of_le hbn hs.le) with
    ⟨t, _, hr, _, _, _, he⟩ | ⟨_, hc⟩
  · rw [he hbn] at hr
    exact hr
  · rw [Nat.max_eq_left hbn] at hc
    omega

/-- The bytes of one round of a loop. -/
theorem fileByte_block {off k : Nat} (hk : off % bsize + k < bsize)
    (hne : own s i (.data (off / bsize)) ≠ 0) :
    fileByte s i (off + k) = byteAt (s.blk (own s i (.data (off / bsize)))) (off % bsize + k) := by
  have hb : bsize = 512 := rfl
  have hdiv : (off + k) / bsize = off / bsize := by
    rw [hb] at hk ⊢
    omega
  have hmod : (off + k) % bsize = off % bsize + k := by
    rw [hb] at hk ⊢
    omega
  rw [fileByte, hdiv, hmod, if_neg hne]

/-- Reading a file without holes allocates nothing. -/
theorem readLoop_spec (fuel : Nat) {off : Nat} (h : Owned sb s)
    (hl : (s.mem i).kind ≠ .free) (hs : Shaped s i nb) (hn : off + n ≤ nb * bsize)
    (hfuel : n ≤ fuel) :
    readLoop sb i fuel off n s = .ok (firstOf (fun k => fileByte s i (off + k)) n, s) := by
  induction fuel generalizing off n with
  | zero =>
    obtain rfl : n = 0 := Nat.le_zero.1 hfuel
    rfl
  | succ fuel ih =>
    unfold readLoop
    by_cases h0 : n = 0
    · subst h0
      rfl
    have hb : bsize = 512 := rfl
    have hbn : off / bsize < nb := by
      rw [hb] at hn ⊢
      omega
    have hmod : off % bsize < bsize := Nat.mod_lt _ (by decide)
    have hne := (hs.iff (.data (off / bsize))).2 hbn
    rw [if_neg h0, hs.bmap_old h hl hbn]
    refine bind_of_ok rfl ?_
    dsimp only
    have hend : off + min n (bsize - off % bsize) + (n - min n (bsize - off % bsize))
        ≤ nb * bsize := by omega
    refine bind_of_ok (ih hend (by omega)) ?_
    have hbytes : (List.range (min n (bsize - off % bsize))).map
        (fun k => byteAt (s.blk (own s i (.data (off / bsize)))) (off % bsize + k))
        = firstOf (fun k => fileByte s i (off + k)) (min n (bsize - off % bsize)) := by
      refine List.map_congr_left fun k hk => (fileByte_block ?_ hne).symm
      have := List.mem_range.1 hk
      omega
    have hcat : n = min n (bsize - off % bsize) + (n - min n (bsize - off % bsize)) := by omega
    have hall := firstOf_add (fun k => fileByte s i (off + k)) (min n (bsize - off % bsize))
      (n - min n (bsize - off % bsize))
    rw [← hcat] at hall
    dsimp only
    rw [hbytes, hall]
    simp only [Nat.add_assoc]

theorem nblocks_mono : Monotone nblocks := fun _ _ h =>
  Nat.div_le_div_right (Nat.add_le_add_right h _)

/-- What the loop of `writei` does to a file of `nb` blocks without
holes. -/
structure Wrote (sb : Superblock) (i nb off : Nat) (src : List Byte) (s t : FsState) : Prop where
  ext : Extends sb i s t
  shape : Shaped t i (max nb (nblocks (off + src.length)))
  bytes : fileByte t i = overwrite (fileByte s i) off src
  others : ∀ i', i' ≠ i → fileByte t i' = fileByte s i'
  mem : nblocks (off + src.length) ≤ nb → t.mem = s.mem

theorem Wrote.nil {off : Nat} (h : Owned sb s) (hs : Shaped s i nb) (hoff : off ≤ nb * bsize) :
    Wrote sb i nb off [] s s := by
  refine ⟨.refl h, ?_, (overwrite_nil _ _).symm, fun _ _ => rfl, fun _ => rfl⟩
  have : nblocks (off + 0) ≤ nb := nblocks_le.2 hoff
  rw [List.length_nil, Nat.max_eq_left this]
  exact hs

theorem Wrote.trans {off : Nat} {src rest : List Byte} (h1 : Wrote sb i nb off src s t)
    (h2 : Wrote sb i (max nb (nblocks (off + src.length))) (off + src.length) rest t u) :
    Wrote sb i nb off (src ++ rest) s u := by
  have hlen : off + (src ++ rest).length = off + src.length + rest.length := by
    rw [List.length_append, Nat.add_assoc]
  have hle : nblocks (off + src.length) ≤ nblocks (off + src.length + rest.length) :=
    nblocks_mono (Nat.le_add_right _ _)
  refine ⟨h1.ext.trans h2.ext, ?_, ?_, fun i' hi => (h2.others i' hi).trans (h1.others i' hi),
    fun hn => ?_⟩
  · have hshape := h2.shape
    rwa [Nat.max_assoc, Nat.max_eq_right hle, ← hlen] at hshape
  · rw [h2.bytes, h1.bytes, overwrite_append]
  · rw [hlen] at hn
    rw [h2.mem (Nat.le_trans hn (Nat.le_max_left _ _)), h1.mem (Nat.le_trans hle hn)]

/-- One round: a block is found or added and a part of it written. -/
theorem Wrote.round {off : Nat} {src : List Byte} (h : Owned sb s)
    (hlen : src ≠ []) (hr : off % bsize + src.length ≤ bsize)
    (hg : Grown sb i s t ps) (hs : Shaped t i (max nb (off / bsize + 1)))
    (hsame : off / bsize < nb → t = s) :
    Wrote sb i nb off src s (t.setBlk (own t i (.data (off / bsize)))
      (putBytes (t.blk (own t i (.data (off / bsize)))) (off % bsize) src)) := by
  have ho := hg.owned h
  have hpos := List.length_pos_of_ne_nil hlen
  have hb : bsize = 512 := rfl
  have hnb : nblocks (off + src.length) = off / bsize + 1 := by
    unfold nblocks
    rw [hb] at hr ⊢
    omega
  have hne : own t i (.data (off / bsize)) ≠ 0 := by
    refine (hs.iff _).2 ?_
    show off / bsize < _
    omega
  have hoff : off / bsize * bsize + off % bsize = off := by
    rw [Nat.mul_comm]
    exact Nat.div_add_mod off bsize
  refine ⟨(hg.extends h).trans (ho.extends_setBlk _ _), ?_, ?_, fun i' hi => ?_, fun hn => ?_⟩
  · rw [hnb]
    exact hs.of_own (ho.own_setBlk _ _ i)
  · have hold : fileByte t i = fileByte s i := funext fun o => hg.fileByte h i o
    rw [ho.fileByte_setBlk hne hr, hoff, hold]
  · funext o
    rw [ho.fileByte_other hi, hg.fileByte h]
  · rw [hnb] at hn
    show t.mem = s.mem
    rw [hsame hn]

/-- Writing a file without holes, unless there are not blocks enough. -/
theorem writeLoop_spec (fuel : Nat) {off : Nat} {src : List Byte} (h : Owned sb s)
    (hl : (s.mem i).kind ≠ .free) (hs : Shaped s i nb) (hoff : off ≤ nb * bsize)
    (hmax : off + src.length ≤ maxFile * bsize) (hfuel : src.length ≤ fuel) :
    (∃ t, writeLoop sb i fuel off src s = .ok t ∧ Wrote sb i nb off src s t ∧
        (freeBlocks sb t).card + blocksFor (max nb (nblocks (off + src.length)))
          = (freeBlocks sb s).card + blocksFor nb)
      ∨ (writeLoop sb i fuel off src s = .error .outOfBlocks ∧ blocksFor nb + (freeBlocks sb s).card
          < blocksFor (max nb (nblocks (off + src.length)))) := by
  have hnone : max nb (nblocks (off + ([] : List Byte).length)) = nb :=
    Nat.max_eq_left (nblocks_le.2 hoff)
  induction fuel generalizing s nb off src with
  | zero =>
    obtain rfl : src = [] := List.length_eq_zero_iff.1 (Nat.le_zero.1 hfuel)
    exact Or.inl ⟨s, rfl, .nil h hs hoff, by rw [hnone]⟩
  | succ fuel ih =>
    unfold writeLoop
    by_cases h0 : src = []
    · subst h0
      exact Or.inl ⟨s, rfl, .nil h hs hoff, by rw [hnone]⟩
    rw [if_neg h0]
    have hlen := List.length_pos_of_ne_nil h0
    have hb : bsize = 512 := rfl
    have hmod : off % bsize < bsize := Nat.mod_lt _ (by decide)
    have hbn : off / bsize ≤ nb := by
      rw [hb] at hoff ⊢
      omega
    have hbnmax : off / bsize < maxFile := by
      rw [hb] at hmax ⊢
      omega
    have hlt : off / bsize < nblocks (off + src.length) := lt_nblocks (by omega)
    rcases hs.bmap h hl hbn hbnmax with ⟨t, ps, hr, hg, hcost, hst, hsame⟩ | ⟨hr, hc⟩
    · generalize hm : min src.length (bsize - off % bsize) = m
      have htake : (src.take m).length = m := by
        rw [List.length_take]
        omega
      have hne : src.take m ≠ [] := by
        intro he
        rw [he, List.length_nil] at htake
        omega
      have hround := Wrote.round h hne (by rw [htake]; omega) hg hst hsame
      have hnb : nblocks (off + m) = off / bsize + 1 := by
        unfold nblocks
        rw [hb] at hm hmod ⊢
        omega
      have hcat : src = src.take m ++ src.drop m := (List.take_append_drop m src).symm
      have hend : off + m + (src.drop m).length = off + src.length := by
        rw [List.length_drop]
        omega
      have hshape := hround.shape
      rw [htake] at hshape
      have hcard : (freeBlocks sb t).card + ps.length = (freeBlocks sb s).card := hg.card
      have hoff' : off + m ≤ max nb (nblocks (off + m)) * bsize :=
        nblocks_le.1 (Nat.le_max_right _ _)
      rcases ih hround.ext.owned (hround.ext.live hl) hshape hoff' (by rw [hend]; exact hmax)
          (by rw [List.length_drop]; omega) (Nat.max_eq_left (nblocks_le.2 hoff')) with
        ⟨u, hu, hrest, hspent⟩ | ⟨hu, hc⟩
      · refine Or.inl ⟨u, bind_of_ok hr hu, ?_, ?_⟩
        · rw [hcat]
          refine hround.trans ?_
          rw [htake]
          exact hrest
        · have hfree : (freeBlocks sb u).card + blocksFor (max (max nb (nblocks (off + m)))
              (nblocks (off + m + (src.drop m).length)))
              = (freeBlocks sb t).card + blocksFor (max nb (nblocks (off + m))) := hspent
          rw [Nat.max_assoc, Nat.max_eq_right (nblocks_mono (Nat.le_add_right _ _)), hend, hnb,
            ← hcost] at hfree
          omega
      · refine Or.inr ⟨bind_of_ok hr hu, ?_⟩
        have hfree : blocksFor (max nb (nblocks (off + m))) + (freeBlocks sb t).card
            < blocksFor (max (max nb (nblocks (off + m)))
              (nblocks (off + m + (src.drop m).length))) := hc
        rw [Nat.max_assoc, Nat.max_eq_right (nblocks_mono (Nat.le_add_right _ _)), hend, hnb,
          ← hcost] at hfree
        omega
    · refine Or.inr ⟨by rw [hr]; rfl, Nat.lt_of_lt_of_le hc (blocksFor_mono ?_)⟩
      omega

-- ======== the operations

/-- The invariant of the operations when files have no holes. -/
structure Formatted (sb : Superblock) (s : FsState) : Prop where
  owned : Owned sb s
  synced : s.mem = s.disk
  files : ∀ i, (s.mem i).kind ≠ .free → Shaped s i (nblocks (s.mem i).size)

/-- The bytes of a file. -/
def contents (s : FsState) (i : Nat) : List Byte := firstOf (fileByte s i) (s.mem i).size

/-- `readi` of a file without holes, within it and beyond its end. -/
theorem readi_of_shaped (h : Owned sb s) (hl : (s.mem i).kind ≠ .free)
    (hd : (s.mem i).kind ≠ .dev) (hs : Shaped s i (nblocks (s.mem i).size))
    (devsw : Nat → Option (Nat → Int × List Byte)) {off : Nat} (hw : off + n < 2 ^ 32) :
    readi sb s devsw i off n = .ok (if (s.mem i).size < off then (-1, [], s)
      else ((((contents s i).drop off).take n).length, ((contents s i).drop off).take n, s)) := by
  unfold readi
  dsimp only
  rw [if_neg hd, Nat.mod_eq_of_lt hw]
  by_cases hoff : (s.mem i).size < off
  · rw [if_pos (Or.inl hoff), if_pos hoff]
  · rw [if_neg (by omega), if_neg hoff]
    have hn : (if (s.mem i).size < off + n then (s.mem i).size - off else n)
        = min n ((s.mem i).size - off) := by
      split <;> omega
    have hle := nblocks_le.1 (Nat.le_refl (nblocks (s.mem i).size))
    have hloop := readLoop_spec (min n ((s.mem i).size - off)) h hl hs
      (by omega : off + min n ((s.mem i).size - off) ≤ _) (Nat.le_refl _)
    rw [hn, contents, firstOf_part, firstOf_length]
    exact bind_of_ok hloop rfl

/-- `readi` within the file, and beyond its end. -/
theorem readi_spec (h : Formatted sb s) (hl : (s.mem i).kind ≠ .free)
    (hd : (s.mem i).kind ≠ .dev) (devsw : Nat → Option (Nat → Int × List Byte)) {off : Nat}
    (hw : off + n < 2 ^ 32) :
    readi sb s devsw i off n = .ok (if (s.mem i).size < off then (-1, [], s)
      else ((((contents s i).drop off).take n).length, ((contents s i).drop off).take n, s)) :=
  readi_of_shaped h.owned hl hd (h.files i hl) devsw hw

/-- Reading leaves everything as it is, whatever is asked for. -/
theorem readi_pure (h : Formatted sb s) (hl : (s.mem i).kind ≠ .free)
    (devsw : Nat → Option (Nat → Int × List Byte)) (off n : Word) :
    ∃ v bytes, readi sb s devsw i off.toNat n.toNat = .ok (v, bytes, s) := by
  have hoff := off.isLt
  have hn := n.isLt
  by_cases hd : (s.mem i).kind = .dev
  · unfold readi
    dsimp only
    rw [if_pos hd]
    split <;> exact ⟨_, _, rfl⟩
  · by_cases hw : off.toNat + n.toNat < 2 ^ 32
    · rw [readi_spec h hl hd devsw hw]
      split <;> exact ⟨_, _, rfl⟩
    · refine ⟨-1, [], ?_⟩
      unfold readi
      dsimp only
      rw [if_neg hd, if_pos (Or.inr (by omega))]

/-- A write that does not fit or is to a device changes nothing. -/
theorem writei_refused (sb : Superblock) (s : FsState) (i : Nat)
    (devsw : Nat → Option (List Byte → Int))
    (off : Word) (src : Buf) : (∃ v, writei sb s devsw i off.toNat src.val = .ok (v, s)) ∨
      ((s.mem i).kind ≠ .dev ∧ off.toNat ≤ (s.mem i).size ∧
        off.toNat + src.val.length ≤ maxFile * bsize) := by
  have hoff := off.isLt
  have hn := src.property
  unfold writei
  dsimp only
  split
  · left
    split <;> exact ⟨_, rfl⟩
  · next hd =>
    split
    · exact Or.inl ⟨_, rfl⟩
    split
    · exact Or.inl ⟨_, rfl⟩
    · exact Or.inr ⟨hd, by omega, by omega⟩

/-- The result of a write that fits. -/
structure Updated (sb : Superblock) (i off : Nat) (src : List Byte) (s t : FsState) : Prop where
  formatted : Formatted sb t
  kind : (t.mem i).kind = (s.mem i).kind
  size : (t.mem i).size = max (s.mem i).size (off + src.length)
  bytes : contents t i = splice (contents s i) off src
  others : ∀ i', i' ≠ i → t.mem i' = s.mem i' ∧ contents t i' = contents s i'

/-- An inode is changed, in both copies. -/
theorem Formatted.update (h : Formatted sb s) (ho : Owned sb t)
    (hm : ∀ i', i' ≠ i → t.mem i' = s.mem i') (hown : ∀ i' p, i' ≠ i → own t i' p = own s i' p)
    (hd : t.disk = Function.update s.disk i (t.mem i))
    (hi : (t.mem i).kind ≠ .free → Shaped t i (nblocks (t.mem i).size)) : Formatted sb t := by
  refine ⟨ho, ?_, fun i' hl => ?_⟩
  · funext i'
    rw [hd]
    by_cases he : i' = i
    · rw [he, Function.update_self]
    · rw [Function.update_of_ne he, hm i' he, h.synced]
  · by_cases he : i' = i
    · rw [he] at hl ⊢
      exact hi hl
    · rw [hm i' he] at hl ⊢
      exact (h.files i' hl).of_own fun p => hown i' p he

theorem fileByte_of_own (hb : t.blk = s.blk) (ho : ∀ p, own t i p = own s i p) :
    fileByte t i = fileByte s i :=
  funext fun _ => fileByte_congr (ho _) fun _ => by rw [hb]

section Writei

variable (h : Formatted sb s) (hl : (s.mem i).kind ≠ .free) {off : Nat} {src : List Byte}
  (hoff : off ≤ (s.mem i).size) (hw : Wrote sb i (nblocks (s.mem i).size) off src s t)

include h hoff hw

/-- A write inside the file. -/
theorem Wrote.updated_within (hin : off + src.length ≤ (s.mem i).size) :
    Updated sb i off src s t := by
  have hnb := nblocks_mono hin
  have hmem := hw.mem hnb
  have hmax : max (s.mem i).size (off + src.length) = (s.mem i).size := Nat.max_eq_left hin
  refine ⟨⟨hw.ext.owned, by rw [hmem, h.synced, hw.ext.disk], fun i' hl' => ?_⟩,
    by rw [hmem], by rw [hmem, hmax], ?_, fun i' hi => ⟨by rw [hmem], ?_⟩⟩
  · rw [hmem] at hl' ⊢
    by_cases hi : i' = i
    · subst hi
      have hshape := hw.shape
      rwa [Nat.max_eq_left hnb] at hshape
    · exact (h.files i' hl').of_own fun p => hw.ext.other i' p hi
  · rw [contents, hw.bytes, hmem, ← hmax, firstOf_overwrite _ _ _ hoff]
    rfl
  · rw [contents, hw.others i' hi, hmem]
    rfl

/-- A write that makes the file larger. -/
theorem Wrote.updated_beyond (hout : (s.mem i).size < off + src.length) : Updated sb i off src s
      (iupdate (t.setMem i { t.mem i with size := off + src.length }) i) := by
  have hnb := nblocks_mono (Nat.le_of_lt hout)
  have hmax : max (s.mem i).size (off + src.length) = off + src.length :=
    Nat.max_eq_right (Nat.le_of_lt hout)
  generalize hu : iupdate (t.setMem i { t.mem i with size := off + src.length }) i = u
  have hown : ∀ i' p, own u i' p = own t i' p := by
    rw [← hu]
    exact Owned.own_setMem rfl rfl
  have hself : u.mem i = { t.mem i with size := off + src.length } := by
    rw [← hu]
    exact Function.update_self i _ _
  have hother : ∀ i', i' ≠ i → u.mem i' = s.mem i' := by
    intro i' hi
    rw [← hu]
    exact (Function.update_of_ne hi _ _).trans (hw.ext.mem i' hi)
  have hsize : (u.mem i).size = off + src.length := by rw [hself]
  have hbytes : ∀ i', fileByte u i' = fileByte t i' := fun i' =>
    fileByte_of_own (by rw [← hu]; rfl) (hown i')
  have hform : Formatted sb u := by
    refine h.update (i := i) (hw.ext.owned.of_own (by rw [← hu]; rfl) fun i' p _ => hown i' p)
      hother (fun i' p hi => (hown i' p).trans (hw.ext.other i' p hi)) ?_ fun _ => ?_
    · rw [← hw.ext.disk, ← hu]
      rfl
    · have hshape := hw.shape
      rw [Nat.max_eq_right hnb] at hshape
      rw [hsize]
      exact hshape.of_own (hown i)
  have hkind : (u.mem i).kind = (s.mem i).kind := by
    obtain ⟨_, hold⟩ := hw.ext.self
    rw [hself, hold]
  refine ⟨hform, hkind, by rw [hsize, hmax], ?_, fun i' hi => ⟨hother i' hi, ?_⟩⟩
  · rw [contents, hbytes, hw.bytes, hsize, ← hmax, firstOf_overwrite _ _ _ hoff]
    rfl
  · rw [contents, hbytes, hw.others i' hi, hother i' hi]
    rfl

end Writei

/-- A write that fits does what it should, unless there are not blocks
enough. -/
theorem writei_spec (h : Formatted sb s) (hl : (s.mem i).kind ≠ .free)
    (hd : (s.mem i).kind ≠ .dev) (devsw : Nat → Option (List Byte → Int)) {off : Nat}
    {src : List Byte} (hoff : off ≤ (s.mem i).size) (hmax : off + src.length ≤ maxFile * bsize) :
    (∃ t, writei sb s devsw i off src = .ok (src.length, t) ∧ Updated sb i off src s t ∧
        (freeBlocks sb t).card + blocksFor (nblocks (max (s.mem i).size (off + src.length)))
          = (freeBlocks sb s).card + blocksFor (nblocks (s.mem i).size))
      ∨ (writei sb s devsw i off src = .error .outOfBlocks ∧
        blocksFor (nblocks (s.mem i).size) + (freeBlocks sb s).card
          < blocksFor (nblocks (max (s.mem i).size (off + src.length)))) := by
  have hle := nblocks_le.1 (Nat.le_refl (nblocks (s.mem i).size))
  have hw : off + src.length < 2 ^ 32 := Nat.lt_of_le_of_lt hmax (by decide)
  have hnb : max (nblocks (s.mem i).size) (nblocks (off + src.length))
      = nblocks (max (s.mem i).size (off + src.length)) := nblocks_mono.map_max.symm
  unfold writei
  dsimp only
  rw [if_neg hd, Nat.mod_eq_of_lt hw, if_neg (by omega), if_neg (by omega)]
  rcases writeLoop_spec src.length h.owned hl (h.files i hl) (Nat.le_trans hoff hle) hmax
    (Nat.le_refl _) with ⟨t, hr, hwrote, hcost⟩ | ⟨hr, hc⟩
  · left
    rw [hnb] at hcost
    have hsize : (t.mem i).size = (s.mem i).size := by
      obtain ⟨_, hself⟩ := hwrote.ext.self
      rw [hself]
    by_cases hin : off + src.length ≤ (s.mem i).size
    · refine ⟨t, bind_of_ok hr ?_, hwrote.updated_within h hoff hin, hcost⟩
      rw [if_neg (by omega)]
    · refine ⟨_, bind_of_ok hr ?_, hwrote.updated_beyond h hoff (Nat.not_le.1 hin), hcost⟩
      rw [if_pos (by omega)]
  · right
    rw [← hnb]
    exact ⟨by rw [hr]; rfl, hc⟩

/-- An inode that owns nothing has the shape of an empty file. -/
theorem Shaped.empty (h : ∀ p, own s i p = 0) : Shaped s i 0 :=
  ⟨Nat.zero_le _, fun p => iff_of_false (fun hne => hne (h p)) (Nat.not_lt_zero _)⟩

/-- A free inode, any of them, is made one of an empty file. -/
theorem Formatted.fresh (h : Formatted sb s) {inum : Nat} (hf : (s.disk inum).kind = .free)
    (kind : Kind) : Formatted sb { s with
      disk := Function.update s.disk inum (.fresh kind)
      mem := Function.update s.mem inum (.fresh kind) } := by
  have hfree : (s.mem inum).kind = .free := by rw [h.synced]; exact hf
  have ho := @own_fresh s kind inum hfree
  have h0 : nblocks 0 = 0 := by decide
  refine h.update (i := inum) (h.owned.of_own rfl fun i p _ => ho i p)
    (fun i hi => Function.update_of_ne hi _ _) (fun i p _ => ho i p) ?_ fun _ => ?_
  · dsimp only
    rw [Function.update_self]
  · dsimp only
    rw [Function.update_self]
    show Shaped _ inum (nblocks 0)
    rw [h0]
    exact .empty fun p => (ho inum p).trans (own_free hfree p)

theorem ialloc_formatted (h : Formatted sb s) {kind : Kind} {inum : Nat}
    (hr : ialloc sb s kind = .ok (inum, t)) : Formatted sb t := by
  obtain ⟨hf, rfl⟩ := ialloc_inv hr
  exact h.fresh hf kind

theorem fields_formatted (h : Formatted sb s) (hl : (s.mem i).kind ≠ .free) (major nlink : Int) :
    Formatted sb (iupdate (s.setMem i { s.mem i with major := major, nlink := nlink }) i) := by
  have ho : ∀ i' p, own (iupdate (s.setMem i { s.mem i with major := major, nlink := nlink }) i)
      i' p = own s i' p := Owned.own_setMem rfl rfl
  have hself : (s.setMem i { s.mem i with major := major, nlink := nlink }).mem i
      = { s.mem i with major := major, nlink := nlink } := Function.update_self i _ _
  refine h.update (i := i) (h.owned.of_own rfl fun i' p _ => ho i' p)
    (fun i' hi => Function.update_of_ne hi _ _) (fun i' p _ => ho i' p) rfl fun _ => ?_
  have hshape := (h.files i hl).of_own (ho i)
  show Shaped _ i (nblocks ((s.setMem i _).mem i).size)
  rw [hself]
  exact hshape

theorem release_formatted (h : Formatted sb s) (ht : Truncated s t i) :
    Formatted sb (t.release i) := by
  refine h.update (h.owned.release ht) (fun i' hi => ht.mem_release hi)
    (fun i' p hi => (ht.own_release i' p).trans (ht.own_other hi p)) ht.disk_release fun hl => ?_
  refine absurd ?_ hl
  show (Function.update t.mem i _ i).kind = .free
  rw [Function.update_self]

/-- The inode an operation is on, if that is given with it. -/
def Op.inum : Op → Option Nat
  | .ialloc _ => none
  | .readi inum _ _ | .writei inum _ _ | .fields inum _ _ | .iput inum | .reload inum => some inum

/-- What an operation may do: it changes no other inode than its own, and
only `iput` changes the type of that. -/
structure Worked (sb : Superblock) (op : Op) (s t : FsState) : Prop where
  formatted : Formatted sb t
  others : ∀ i i', op.inum = some i → i' ≠ i → t.mem i' = s.mem i'
  kind : ∀ i, op.inum = some i → op ≠ .iput i → (t.mem i).kind = (s.mem i).kind

theorem Worked.refl (h : Formatted sb s) (op : Op) : Worked sb op s s :=
  ⟨h, fun _ _ _ _ => rfl, fun _ _ _ => rfl⟩

theorem op_worked (h : Formatted sb s)
    (hr : op.apply sb s devsw = .ok t) : Worked sb op s t := by
  cases op with
  | ialloc kind =>
    cases hi : ialloc sb s kind with
    | error e =>
      simp only [Op.apply, hi] at hr
      cases hr
    | ok x =>
      simp only [Op.apply, hi] at hr
      cases hr
      exact ⟨ialloc_formatted h hi, nofun, nofun⟩
  | readi inum off n =>
    dsimp only [Op.apply] at hr
    split at hr
    · cases hr
      exact .refl h _
    · next hl =>
      obtain ⟨v, bytes, hread⟩ := readi_pure h hl devsw.read off n
      rw [hread] at hr
      cases hr
      exact .refl h _
  | writei inum off src =>
    dsimp only [Op.apply] at hr
    split at hr
    · cases hr
      exact .refl h _
    · next hl =>
      rcases writei_refused sb s inum devsw.write off src with ⟨v, hw⟩ | ⟨hd, hoff, hmax⟩
      · rw [hw] at hr
        cases hr
        exact .refl h _
      · rcases writei_spec h hl hd devsw.write hoff hmax with ⟨u, hw, hup, _⟩ | ⟨hw, _⟩
        · rw [hw] at hr
          cases hr
          refine ⟨hup.formatted, ?_, ?_⟩
          · rintro i i' ⟨⟩ hi
            exact (hup.others i' hi).1
          · rintro i ⟨⟩ -
            exact hup.kind
        · rw [hw] at hr
          cases hr
  | fields inum major nlink =>
    dsimp only [Op.apply] at hr
    split at hr
    · cases hr
      exact .refl h _
    · next hl =>
      cases hr
      refine ⟨fields_formatted h hl major nlink, ?_, ?_⟩
      · rintro i i' ⟨⟩ hi
        exact Function.update_of_ne hi _ _
      · rintro i ⟨⟩ -
        show (Function.update s.mem inum _ inum).kind = _
        rw [Function.update_self]
  | iput inum =>
    dsimp only [Op.apply] at hr
    split at hr
    · cases hr
      exact .refl h _
    · next hl =>
      push Not at hl
      obtain ⟨u, hu, ht⟩ := itrunc_spec h.owned hl.1
      rw [hu] at hr
      cases hr
      refine ⟨release_formatted h ht, ?_, ?_⟩
      · rintro i i' ⟨⟩ hi
        exact ht.mem_release hi
      · rintro i ⟨⟩ hne
        exact absurd rfl hne
  | reload inum =>
    cases hr
    have hsame : s.setMem inum (s.disk inum) = s := by
      have hd : s.disk inum = s.mem inum := by rw [h.synced]
      rw [hd, FsState.setMem, Function.update_eq_self]
    rw [hsame]
    exact .refl h _

theorem op_formatted (h : Formatted sb s)
    (hr : op.apply sb s devsw = .ok t) : Formatted sb t := (op_worked h hr).formatted

theorem Formatted.reach (h : Reach (opStep sb devsw) (Formatted sb) s) :
    Formatted sb s :=
  h.invariant (fun _ => id) fun _ _ _ hs hstep => op_formatted hs (opStep_ok hstep)

-- ======== results

/-- In a state that operations on a disk of files without holes get to: a
write of `src` at an offset inside a file, or at its end, that leaves it
no larger than the largest file and finds blocks enough returns the
number of bytes; the file is then its old bytes with `src` put in, and so
is what `readi` reads, in any part of it; and every other inode is what it
was. Whatever is read or written, `bmap` is not asked for a block beyond
the largest file. -/
theorem file_is_byte_array (sb : Superblock) (devsw : Devsw) (s : FsState)
    (hr : Reach (opStep sb devsw) (Formatted sb) s) :
    (∀ i off (src : List Byte), (s.mem i).kind = .file → off ≤ (s.mem i).size →
      off + src.length ≤ maxFile * bsize →
      blocksFor (nblocks (max (s.mem i).size (off + src.length)))
        ≤ blocksFor (nblocks (s.mem i).size) + (freeBlocks sb s).card →
      ∃ t, writei sb s devsw.write i off src = .ok (src.length, t) ∧
        (t.mem i).size = max (s.mem i).size (off + src.length) ∧
        contents t i = splice (contents s i) off src ∧
        (∀ off' n', off' + n' < 2 ^ 32 → readi sb t devsw.read i off' n'
          = .ok (if (t.mem i).size < off' then (-1, [], t)
            else ((((contents t i).drop off').take n').length,
              ((contents t i).drop off').take n', t))) ∧
        ∀ i', i' ≠ i → t.mem i' = s.mem i' ∧ contents t i' = contents s i') ∧
    ∀ i, (s.mem i).kind ≠ .free → ∀ off n : Word, ∀ src : Buf,
      readi sb s devsw.read i off.toNat n.toNat ≠ .error .bmapRange ∧
      writei sb s devsw.write i off.toNat src.val ≠ .error .bmapRange := by
  have h := Formatted.reach hr
  refine ⟨fun i off src hk hoff hmax hfree => ?_, fun i hl off n src => ⟨?_, ?_⟩⟩
  · have hl : (s.mem i).kind ≠ .free := by rw [hk]; exact nofun
    have hd : (s.mem i).kind ≠ .dev := by rw [hk]; exact nofun
    rcases writei_spec h hl hd devsw.write hoff hmax with ⟨t, hw, hup, _⟩ | ⟨_, hc⟩
    · rw [← hup.kind] at hl hd
      exact ⟨t, hw, hup.size, hup.bytes,
        fun off' n' hlt => readi_spec hup.formatted hl hd devsw.read hlt, hup.others⟩
    · omega
  · obtain ⟨v, bytes, hread⟩ := readi_pure h hl devsw.read off n
    rw [hread]
    exact nofun
  · rcases writei_refused sb s i devsw.write off src with ⟨v, hw⟩ | ⟨hd, hoff, hmax⟩
    · rw [hw]
      exact nofun
    · rcases writei_spec h hl hd devsw.write hoff hmax with ⟨u, hw, _⟩ | ⟨hw, _⟩
      · rw [hw]
        exact nofun
      · rw [hw]
        exact nofun

theorem emptyImage_formatted (sb : Superblock) (hw : sb.size ≤ 2 ^ 32) (h0 : 0 < sb.dataStart) :
    Formatted sb (emptyImage sb) :=
  ⟨(emptyImage_consistent sb hw h0).1, rfl, fun _ hl => absurd rfl hl⟩

/-- Three bytes are written over the end of a file of three bytes. -/
theorem file_is_byte_array_overwritten :
    ∃ s t, Reach (opStep smallDisk noDevices) (Formatted smallDisk) s ∧
      writei smallDisk s noDevices.write 1 1 [9, 8, 7] = .ok (3, t) ∧
      contents s 1 = [1, 2, 3] ∧ contents t 1 = [1, 9, 8, 7] := by
  obtain ⟨s, hr, hf⟩ := Reach.eval (opStep smallDisk noDevices)
    [.ialloc .file, .writei 1 0 ⟨[1, 2, 3], by decide⟩]
    (fun s => ((s.mem 1).kind, (s.mem 1).size, (freeBlocks smallDisk s).card, contents s 1))
    (.file, 3, 39, [1, 2, 3])
    (emptyImage_formatted smallDisk (by decide) (by decide)) (by decide +kernel)
  obtain ⟨hk, hf⟩ := Prod.mk.inj hf
  obtain ⟨hs, hf⟩ := Prod.mk.inj hf
  obtain ⟨hfree, hc⟩ := Prod.mk.inj hf
  obtain ⟨t, hw, _, hb, _⟩ := (file_is_byte_array smallDisk noDevices s hr).1 1 1 [9, 8, 7] hk
    (by rw [hs]; decide) (by decide) (by rw [hs, hfree]; decide)
  refine ⟨s, t, hr, hw, hc, ?_⟩
  rw [hb, hc]
  rfl

/-- The blocks of a file. -/
def blocksOf (s : FsState) (i : Nat) : Set Nat := { b | b ≠ 0 ∧ ∃ p, own s i p = b }

/-- The blocks whose bits are set. -/
def usedBlocks (s : FsState) : Set Nat := { b | s.used b = true }

/-- In a state that operations on a disk of files without holes get to,
`itrunc` of a file frees exactly its blocks if and only if the file has no
data block but the direct ones. -/
theorem itrunc_frees_file_iff (sb : Superblock) (devsw : Devsw) (s : FsState) (i : Nat)
    (hr : Reach (opStep sb devsw) (Formatted sb) s) (hl : (s.mem i).kind ≠ .free) :
    ∃ t, itrunc s i = .ok t ∧
      (usedBlocks t = usedBlocks s \ blocksOf s i ↔ (s.mem i).size ≤ ndirect * bsize) := by
  have h := Formatted.reach hr
  obtain ⟨t, hres, ht⟩ := itrunc_spec h.owned hl
  have hshape := h.files i hl
  refine ⟨t, hres, fun heq => ?_, fun hsize => ?_⟩
  · -- the thirteenth data block would be freed
    by_contra hlt
    have hfirst : ndirect < nblocks (s.mem i).size := by
      by_contra hle
      exact hlt (nblocks_le.1 (Nat.not_lt.1 hle))
    have hne := (hshape.iff (.data ndirect)).2 hfirst
    have hstill : own s i (.data ndirect) ∈ usedBlocks t := by
      refine (ht.used _).2 ⟨(h.owned.place i _ hne).2.2, fun p hp he => ?_⟩
      have hpos := (h.owned.unique i _ i p hne he.symm).2
      rw [← hpos] at hp
      exact absurd hp (Nat.lt_irrefl ndirect)
    rw [heq] at hstill
    exact hstill.2 ⟨hne, _, rfl⟩
  · ext b
    refine (ht.used b).trans (and_congr_right fun _ => ⟨fun hfree hb => ?_, fun hb p _ he => ?_⟩)
    · obtain ⟨hb0, p, hp⟩ := hb
      refine hb0 (hfree p ?_ hp)
      have hlt := (hshape.iff p).1 (by rw [hp]; exact hb0)
      have hnb := nblocks_le.2 hsize
      cases p with
      | data bn => exact Nat.lt_of_lt_of_le hlt hnb
      | root => trivial
      | mid j => trivial
    · by_contra hb0
      exact hb ⟨hb0, p, he⟩

/-- A file of twelve blocks is freed. -/
theorem itrunc_frees_file_iff_direct :
    ∃ s t, Reach (opStep smallDisk noDevices) (Formatted smallDisk) s ∧
      (s.mem 1).size = 6144 ∧ itrunc s 1 = .ok t ∧
      usedBlocks t = usedBlocks s \ blocksOf s 1 := by
  obtain ⟨s, hr, hf⟩ := Reach.eval (opStep smallDisk noDevices)
    [.ialloc .file, .writei 1 0 ⟨List.replicate 6144 0, by rw [List.length_replicate]; decide⟩]
    (fun s => ((s.mem 1).kind, (s.mem 1).size)) (.file, 6144)
    (emptyImage_formatted smallDisk (by decide) (by decide)) (by decide +kernel)
  obtain ⟨hk, hs⟩ := Prod.mk.inj hf
  obtain ⟨t, ht, hiff⟩ := itrunc_frees_file_iff smallDisk noDevices s 1 hr
    (by rw [hk]; exact nofun)
  exact ⟨s, t, hr, hs, ht, hiff.2 (by rw [hs]; decide)⟩

/-- A file of one byte more: its last data block keeps its bit when the
file is deleted. -/
theorem itrunc_leaks_block :
    ∃ s, Reach (opStep smallDisk noDevices) (Formatted smallDisk) s ∧
      (s.mem 1).kind = .file ∧ (s.mem 1).size = 6145 ∧ own s 1 (.data 12) = 74 ∧
      ∃ t, itrunc s 1 = .ok t ∧ t.used 74 = true := by
  obtain ⟨s, hr, hf⟩ := Reach.eval (opStep smallDisk noDevices)
    [.ialloc .file, .writei 1 0 ⟨List.replicate 6145 0, by rw [List.length_replicate]; decide⟩]
    (fun s => ((s.mem 1).kind, (s.mem 1).size, own s 1 (.data 12),
      (itrunc s 1).toOption.map fun t => t.used 74))
    (.file, 6145, 74, some true)
    (emptyImage_formatted smallDisk (by decide) (by decide)) (by decide +kernel)
  obtain ⟨hk, hf⟩ := Prod.mk.inj hf
  obtain ⟨hs, hf⟩ := Prod.mk.inj hf
  obtain ⟨ho, hu⟩ := Prod.mk.inj hf
  refine ⟨s, hr, hk, hs, ho, ?_⟩
  cases ht : itrunc s 1 with
  | error e =>
      rw [ht] at hu
      cases hu
  | ok t =>
      rw [ht] at hu
      exact ⟨t, rfl, Option.some.inj hu⟩

end Xv6Sume32.Fs
