/-
`iappend` of `mkfs` is `writei` of the kernel, at the end of a file.

# The two sides

`view` is the state of the kernel model that an unfinished image stands
for: the blocks up to `freeblock` are in use, the inodes are those of the
inode blocks. While `iappend` works on its own copy of an inode, that copy
is the one in the inode cache (`during`).

# Allocation

`mkfs` takes `freeblock` and does not clear it, the kernel takes the first
block whose bit is clear and clears it. Both come to the same because the
blocks from `freeblock` on have never been written (`Ready`). Where the
kernel panics for want of a block, `mkfs` goes on with the number of a
block behind the end of the image, and ends with the next `rsect`.
-/
import Xv6Sume32.Fs.Mkfs
import Xv6Sume32.Fs.Proofs.Files

namespace Xv6Sume32.Fs

open Lib
open Function (update update_eq_self update_idem update_of_ne update_self)

variable {b w j k a bn x : Nat} {buf : Block} {din' : Din} {p : List Byte} {m' : Mkfs}

-- ======== layout

theorem sector_of_lt (h : b < 2 ^ 23) : sector b = b := by
  unfold sector bsize
  omega

theorem iblock_lt {inum : Nat} (h : inum < ninodeblocks * ipb) : iblock inum < bmapStart := by
  have h' : inum < 26 * 8 := h
  have : iblock inum = inum / 8 + 32 := rfl
  have : bmapStart = 58 := rfl
  omega

theorem bmapStart_lt : bmapStart < nmeta := by decide

theorem nmeta_lt : nmeta < fssize := by decide

theorem fssize_lt : fssize < 2 ^ 23 := by decide

-- ======== the inodes

theorem dinIn_putDin {inum : Nat} {din : Din} (hw : w < dinodeWords) :
    dinIn (putDin buf inum din) inum w = din w := by
  unfold dinIn putDin
  rw [if_pos ⟨by omega, by omega⟩, Nat.add_sub_cancel_left]

theorem dinIn_putDin_other {inum : Nat} {din : Din}
    (hw : w < dinodeWords) (hj : j % ipb ≠ inum % ipb) :
    dinIn (putDin buf inum din) j w = dinIn buf j w := by
  unfold dinIn putDin
  have hd : dinodeWords = 16 := rfl
  rw [hd] at hw ⊢
  rw [if_neg (by omega)]

/-- The kernel reads sixteen words. -/
theorem inodeOf_congr {din : Din} (h : ∀ w, w < dinodeWords → din w = din' w) :
    inodeOf din = inodeOf din' := by
  have hd : dinodeWords = 16 := rfl
  have h0 := h 0 (by decide)
  have h1 := h 1 (by decide)
  have h2 := h 2 (by decide)
  have ha : (fun k => if k ≤ ndirect then din.addr k else 0)
      = fun k => if k ≤ ndirect then din'.addr k else 0 := by
    funext k
    split
    · next hk =>
      have hn : ndirect = 12 := rfl
      unfold Din.addr
      rw [h (3 + k) (by omega)]
    · rfl
  unfold inodeOf Din.size
  rw [h0, h1, h2, ha]

theorem inodeOf_setSize (din : Din) {n : Nat} (hn : n < 2 ^ 32) :
    inodeOf (din.setSize n) = { inodeOf din with size := n } := by
  have ha : ∀ k, (din.setSize n).addr k = din.addr k := by
    intro k
    unfold Din.addr Din.setSize
    rw [update_of_ne (by omega)]
  unfold inodeOf
  simp only [ha]
  simpa [Din.setSize, Din.size] using hn

theorem addr_setAddr (din : Din) (hb : b < 2 ^ 32) : (din.setAddr k b).addr k = b := by
  simpa [Din.addr, Din.setAddr] using hb

theorem inodeOf_setAddr (din : Din) (hk : k ≤ ndirect) (hb : b < 2 ^ 32) : inodeOf (din.setAddr k b)
      = { inodeOf din with addrs := update (inodeOf din).addrs k b } := by
  have h0 : din.setAddr k b 0 = din 0 := update_of_ne (by omega) _ _
  have h1 : din.setAddr k b 1 = din 1 := update_of_ne (by omega) _ _
  have h2 : din.setAddr k b 2 = din 2 := update_of_ne (by omega) _ _
  have ha : (fun l => if l ≤ ndirect then (din.setAddr k b).addr l else 0)
      = update (inodeOf din).addrs k b := by
    funext l
    by_cases hl : l = k
    · subst hl
      rw [update_self, if_pos hk, addr_setAddr din hb]
    · rw [update_of_ne hl]
      simp only [inodeOf]
      have : (din.setAddr k b).addr l = din.addr l := by
        unfold Din.addr Din.setAddr
        rw [update_of_ne (by omega)]
      rw [this]
  unfold inodeOf Din.size at *
  rw [h0, h1, h2, ha]

theorem addrs_inodeOf (din : Din) (hk : k ≤ ndirect) :
    (inodeOf din).addrs k = din.addr k := if_pos hk

namespace Image

variable {img : Image}

/-- Writing behind the inode blocks changes no inode. -/
theorem inodes_wsect (hb : bmapStart ≤ b) (hlt : b < 2 ^ 23) (buf : Block) :
    (img.wsect b buf).inodes = img.inodes := by
  funext i
  unfold inodes
  split
  · next hi =>
    have := iblock_lt hi
    unfold inodeAt wsect
    dsimp only
    rw [sector_of_lt hlt, update_of_ne (by omega)]
  · rfl

/-- Writing an inode changes that inode. -/
theorem inodes_putDin {inum : Nat} (hi : inum < ninodeblocks * ipb) (din : Din) :
    (img.wsect (iblock inum) (putDin (img.blk (iblock inum)) inum din)).inodes
      = update img.inodes inum (inodeOf din) := by
  have hlt : iblock inum < 2 ^ 23 := by
    have := iblock_lt hi
    have : bmapStart = 58 := rfl
    omega
  funext j
  by_cases hj : j = inum
  · subst hj
    rw [update_self]
    unfold inodes
    rw [if_pos hi]
    unfold inodeAt wsect
    dsimp only
    rw [sector_of_lt hlt, update_self]
    exact inodeOf_congr fun w hw => dinIn_putDin hw
  · rw [update_of_ne hj]
    unfold inodes
    split
    · unfold inodeAt wsect
      dsimp only
      rw [sector_of_lt hlt]
      by_cases hb : iblock j = iblock inum
      · rw [hb, update_self]
        refine inodeOf_congr fun w hw => dinIn_putDin_other hw fun hm => hj ?_
        have h1 : j / 8 + 32 = inum / 8 + 32 := hb
        have h2 : j % 8 = inum % 8 := hm
        omega
      · rw [update_of_ne hb]
    · rfl

end Image

-- ======== the views

namespace Mkfs

/-- The state of the kernel that an unfinished image stands for. -/
def view (m : Mkfs) : FsState where
  used := fun b => decide (b < m.freeblock)
  blk := fun b => if b < nmeta then fun _ => 0 else m.img.blk b
  disk := m.img.inodes
  mem := m.img.inodes

/-- The same while `iappend` has a copy of an inode. -/
def during (m : Mkfs) (inum : Nat) (din : Din) : FsState := m.view.setMem inum (inodeOf din)

/-- What has not been allocated has not been written. -/
structure Ready (m : Mkfs) : Prop where
  len : m.img.len = fssize
  start : nmeta ≤ m.freeblock
  le : m.freeblock ≤ fssize
  zero : ∀ b, m.freeblock ≤ b → m.img.blk b = fun _ => 0

variable {m : Mkfs} {inum : Nat} {din : Din}

theorem during_mem (m : Mkfs) (inum : Nat) (din : Din) :
    (m.during inum din).mem inum = inodeOf din := update_self ..

theorem rsect_ok (hl : m.img.len = fssize) (hb : b < fssize) : m.rsect b = .ok (m.img.blk b) := by
  have := fssize_lt
  unfold rsect Image.rsect
  rw [sector_of_lt (by omega), if_pos (by omega)]

theorem rsect_error (hl : m.img.len = fssize) (hb : fssize ≤ b) (hlt : b < 2 ^ 23) :
    m.rsect b = .error .read := by
  unfold rsect Image.rsect
  rw [sector_of_lt hlt, if_neg (by omega)]

/-- The kernel would take `freeblock` too. -/
theorem balloc_view (s : FsState) (hu : ∀ b, s.used b = decide (b < m.freeblock)) :
    Fs.balloc imageSb s = if m.freeblock < fssize then .ok (m.freeblock, s.take m.freeblock)
        else .error .outOfBlocks := by
  have hsize : imageSb.size = fssize := rfl
  unfold Fs.balloc
  rw [hsize]
  split
  · next h =>
    have := List.find?_eq_none.1 h m.freeblock
    simp [hu] at this
    rw [if_neg (by omega)]
  · next b h =>
    obtain ⟨hp, hmem, hlt⟩ := List.find?_range_eq_some.1 h
    simp [hu] at hp hmem hlt
    have hb : b = m.freeblock := by
      by_contra hne
      have := hlt m.freeblock (by omega)
      omega
    subst hb
    rw [if_pos hmem]
    rfl

/-- The next block is clear already. -/
theorem take_during (hm : m.Ready) : (m.during inum din).take m.freeblock
      = { m with freeblock := m.freeblock + 1 }.during inum din := by
  have hused : update (fun b => decide (b < m.freeblock)) m.freeblock true
      = fun b => decide (b < m.freeblock + 1) := by
    funext b
    by_cases hb : b = m.freeblock
    · simp [hb]
    · rw [update_of_ne hb]
      exact decide_eq_decide.2 (by omega)
  have hblk : update m.view.blk m.freeblock (fun _ => 0) = m.view.blk := by
    have hstart := hm.start
    refine Function.update_eq_self_iff.2 ?_
    unfold view
    dsimp only
    rw [if_neg (by omega), hm.zero _ (Nat.le_refl _)]
  unfold during FsState.setMem FsState.take
  dsimp only
  rw [hblk]
  unfold view
  dsimp only
  rw [hused]

theorem Ready.take (hm : m.Ready) (h : m.freeblock < fssize) :
    Ready { m with freeblock := m.freeblock + 1 } :=
  ⟨hm.len, Nat.le_succ_of_le hm.start, h, fun b hb => hm.zero b (Nat.le_of_succ_le hb)⟩

theorem setAddr_during (hk : k ≤ ndirect) (hb : b < 2 ^ 32) :
    (m.during inum din).setAddr inum k b = m.during inum (din.setAddr k b) := by
  unfold FsState.setAddr
  rw [during_mem, ← inodeOf_setAddr din hk hb]
  unfold during FsState.setMem
  dsimp only
  rw [update_idem]

/-- Writing a data block. -/
theorem wsect_during (ha : nmeta ≤ a) (hlt : a < 2 ^ 23) (buf : Block) :
    (m.wsect a buf).during inum din = (m.during inum din).setBlk a buf := by
  have hblk : (fun b => if b < nmeta then fun _ => 0 else update m.img.blk a buf b)
      = update m.view.blk a buf := by
    funext b
    by_cases hb : b = a
    · subst hb
      rw [update_self, update_self, if_neg (by omega)]
    · rw [update_of_ne hb, update_of_ne hb]
      rfl
  have hin : (m.wsect a buf).img.inodes = m.img.inodes :=
    Image.inodes_wsect (Nat.le_trans (Nat.le_of_lt bmapStart_lt) ha) hlt buf
  unfold during FsState.setBlk FsState.setMem view
  dsimp only
  rw [hin]
  unfold wsect Image.wsect
  dsimp only
  rw [sector_of_lt hlt, hblk]
  rfl

theorem Ready.wsect (hm : m.Ready) (hlt : a < m.freeblock) (buf : Block) :
    (m.wsect a buf).Ready := by
  have hle := hm.le
  have hfs := fssize_lt
  have hlen := hm.len
  refine ⟨?_, hm.start, hm.le, fun b hb => ?_⟩
  · show max m.img.len (sector a + 1) = fssize
    rw [sector_of_lt (by omega)]
    omega
  · show update m.img.blk (sector a) buf b = _
    have hb' : m.freeblock ≤ b := hb
    rw [sector_of_lt (by omega), update_of_ne (by omega)]
    exact hm.zero b hb

theorem blk_during (ha : nmeta ≤ a) : (m.during inum din).blk a = m.img.blk a :=
  if_neg (Nat.not_lt.2 ha)

-- ======== the index walk

/-- `din.addrs[k]`, with a block if it has none. -/
theorem addAddr_sim (inum : Nat) (din : Din) (hm : m.Ready) (hk : k ≤ ndirect) :
    (addrAlloc imageSb (m.during inum din) inum k
        = .ok ((m.addAddr din k).1.addr k, (m.addAddr din k).2.during inum (m.addAddr din k).1) ∧
      (m.addAddr din k).2.Ready) ∨
    (addrAlloc imageSb (m.during inum din) inum k = .error .outOfBlocks ∧
      (m.addAddr din k).1.addr k = fssize ∧ (m.addAddr din k).2.img = m.img) := by
  have hle := hm.le
  have hfs := fssize_lt
  unfold addrAlloc addAddr
  rw [during_mem, addrs_inodeOf din hk]
  by_cases h0 : din.addr k = 0
  · rw [if_pos h0, if_pos h0, balloc_view (m := m) _ fun _ => rfl]
    dsimp only
    rw [addr_setAddr din (by omega)]
    by_cases hfree : m.freeblock < fssize
    · refine Or.inl ⟨?_, hm.take hfree⟩
      rw [if_pos hfree]
      refine bind_of_ok rfl ?_
      dsimp only
      rw [take_during hm, setAddr_during hk (by omega)]
    · refine Or.inr ⟨?_, by omega, rfl⟩
      rw [if_neg hfree]
      rfl
  · rw [if_neg h0, if_neg h0]
    exact Or.inl ⟨rfl, hm⟩

theorem addEntry_old (hl : m.img.len = fssize) (ha : a < fssize)
    (h0 : m.img.blk a j ≠ 0) : m.addEntry a j = .ok ((m.img.blk a j).toNat, m) := by
  refine bind_of_ok (rsect_ok hl ha) ?_
  rw [if_neg h0]

theorem addEntry_new (hl : m.img.len = fssize) (ha : a < fssize)
    (h0 : m.img.blk a j = 0) (hb : m.freeblock < 2 ^ 32) :
    m.addEntry a j = .ok (m.freeblock, { m with freeblock := m.freeblock + 1 }.wsect a
      (update (m.img.blk a) j (BitVec.ofNat 32 m.freeblock))) := by
  refine bind_of_ok (rsect_ok hl ha) ?_
  rw [if_pos h0]
  dsimp only
  rw [update_self, BitVec.toNat_ofNat, Nat.mod_eq_of_lt hb]

theorem addEntry_beyond (hl : m.img.len = fssize) (j : Nat) :
    m.addEntry fssize j = .error .read := by
  unfold addEntry
  rw [rsect_error hl (Nat.le_refl _) fssize_lt]
  rfl

/-- An entry of an index block, with a block if it has none. -/
theorem addEntry_sim (inum : Nat) (din : Din) (hm : m.Ready) (j : Nat) (ha : nmeta ≤ a)
    (hlt : a < m.freeblock) : (∃ x m', m.addEntry a j = .ok (x, m') ∧ m'.Ready ∧
      entryAlloc imageSb (m.during inum din) a j = .ok (x, m'.during inum din)) ∨
    (entryAlloc imageSb (m.during inum din) a j = .error .outOfBlocks ∧
      ∃ m', m.addEntry a j = .ok (fssize, m') ∧ m'.img.len = fssize) := by
  have hle := hm.le
  have hfs := fssize_lt
  have hlen := hm.len
  unfold entryAlloc
  rw [blk_during ha]
  by_cases h0 : m.img.blk a j = 0
  · have h0' : (m.img.blk a j).toNat = 0 := by rw [h0]; rfl
    have hnew := addEntry_new hlen (by omega) h0 (by omega)
    rw [if_pos h0', balloc_view (m := m) _ fun _ => rfl]
    by_cases hfree : m.freeblock < fssize
    · refine Or.inl ⟨_, _, hnew, (hm.take hfree).wsect (Nat.lt_succ_of_lt hlt) _, ?_⟩
      rw [if_pos hfree, take_during hm, wsect_during ha (by omega)]
      refine bind_of_ok rfl ?_
      dsimp only
      rw [blk_during ha]
      rfl
    · have heq : m.freeblock = fssize := by omega
      have hnew' := hnew
      rw [show (m.freeblock, _) = (fssize, _) from Prod.ext heq rfl] at hnew'
      refine Or.inr ⟨by rw [if_neg hfree]; rfl, _, hnew', ?_⟩
      show max m.img.len (sector a + 1) = fssize
      rw [sector_of_lt (by omega)]
      omega
  · have h0' : (m.img.blk a j).toNat ≠ 0 := fun h => h0 (BitVec.eq_of_toNat_eq h)
    rw [if_neg h0']
    exact Or.inl ⟨_, _, addEntry_old hlen (by omega) h0, hm, rfl⟩

theorem place_direct (hd : bn < ndirect) :
    m.place din bn = .ok ((m.addAddr din bn).1.addr bn, m.addAddr din bn) := by
  unfold place
  rw [if_pos hd]

/-- The data block in a state the kernel can be in. -/
theorem used_during (h : (m.during inum din).used x = true) : x < m.freeblock :=
  of_decide_eq_true h

/-- The block for a block of the file: the kernel finds or takes the same,
or neither of the two can go on. -/
theorem place_sim (hm : m.Ready) (ho : Owned imageSb (m.during inum din))
    (hl : (inodeOf din).kind ≠ .free) (hbn : bn < maxFile) :
    (∃ x din' m', m.place din bn = .ok (x, din', m') ∧ m'.Ready ∧
      bmap imageSb (m.during inum din) inum bn = .ok (x, m'.during inum din')) ∨
    (bmap imageSb (m.during inum din) inum bn = .error .outOfBlocks ∧
      ∀ x din' m', m.place din bn = .ok (x, din', m') → m'.rsect x = .error .read) := by
  have hl' : ((m.during inum din).mem inum).kind ≠ .free := by rw [during_mem]; exact hl
  by_cases hd : bn < ndirect
  · have hbmap : bmap imageSb (m.during inum din) inum bn
        = addrAlloc imageSb (m.during inum din) inum bn := if_pos hd
    rw [hbmap]
    rcases addAddr_sim inum din hm (Nat.le_of_lt hd) with
      ⟨hr, hm'⟩ | ⟨hr, hx, himg⟩
    · exact Or.inl ⟨_, _, _, place_direct hd, hm', hr⟩
    · refine Or.inr ⟨hr, fun x din' m' hp => ?_⟩
      rw [place_direct hd, hx] at hp
      injection hp with hp
      obtain ⟨rfl, hadd⟩ := Prod.mk.inj hp
      rw [hadd] at himg
      exact rsect_error (by rw [himg]; exact hm.len) (Nat.le_refl _) fssize_lt
  have hj : (bn - ndirect) / nindirect < nindirect := by
    refine Nat.div_lt_of_lt_mul ?_
    unfold maxFile at hbn
    omega
  generalize hj1 : (bn - ndirect) / nindirect = j1 at hj
  generalize hj2 : (bn - ndirect) % nindirect = j2
  have hbmap : bmap imageSb (m.during inum din) inum bn
      = addrAlloc imageSb (m.during inum din) inum ndirect >>= fun r =>
        entryAlloc imageSb r.2 r.1 j1 >>= fun r => entryAlloc imageSb r.2 r.1 j2 := by
    unfold bmap
    rw [if_neg hd, hj1, hj2, if_pos hj]
  have hplace : m.place din bn
      = (m.addAddr din ndirect).2.addEntry ((m.addAddr din ndirect).1.addr ndirect) j1 >>= fun r =>
        r.2.addEntry r.1 j2 >>= fun r => .ok (r.1, (m.addAddr din ndirect).1, r.2) := by
    unfold place
    rw [if_neg hd, hj1, hj2]
  rw [hbmap, hplace]
  have hroot := root_fills ho hl'
  have hmid := mid_fills ho hl' hj
  rcases addAddr_sim inum din hm (Nat.le_refl ndirect) with
    ⟨hr, hm1⟩ | ⟨hr, hx, himg⟩
  · generalize hd1 : m.addAddr din ndirect = r1 at hr hm1 ⊢
    obtain ⟨din1, m1⟩ := r1
    dsimp only at hr hm1 ⊢
    rw [hr] at hroot hmid ⊢
    obtain ⟨-, -, -, ha, -, hu⟩ := hroot.place ho (List.mem_singleton.2 rfl)
    have hmid' : Fills imageSb (m.during inum din) inum [.root, .mid j1] (.mid j1)
      (entryAlloc imageSb (m1.during inum din1) (din1.addr ndirect) j1) := hmid
    rcases addEntry_sim inum din1 hm1 j1 ha (used_during hu) with
      ⟨a, m2, hadd, hm2, he⟩ | ⟨he, m2, hadd, hlen⟩
    · rw [he] at hmid'
      obtain ⟨-, -, -, ha, -, hu⟩ := hmid'.place ho (by simp)
      rcases addEntry_sim inum din1 hm2 j2 ha (used_during hu) with
        ⟨x, m3, hadd', hm3, he'⟩ | ⟨he', m3, hadd', hlen⟩
      · refine Or.inl ⟨x, din1, m3, ?_, hm3, ?_⟩
        · exact bind_of_ok hadd (bind_of_ok hadd' rfl)
        · exact bind_of_ok rfl (bind_of_ok he he')
      · refine Or.inr ⟨bind_of_ok rfl (bind_of_ok he he'), fun x din' m' hp => ?_⟩
        have hp' : Except.ok (fssize, din1, m3) = Except.ok (x, din', m') :=
          (bind_of_ok hadd (bind_of_ok hadd' rfl)).symm.trans hp
        cases hp'
        exact rsect_error hlen (Nat.le_refl _) fssize_lt
    · refine Or.inr ⟨?_, fun x din' m' hp => ?_⟩
      · refine bind_of_ok rfl ?_
        dsimp only
        rw [he]
        rfl
      · rw [hadd] at hp
        have hp' : (m2.addEntry fssize j2 >>= fun r => Except.ok (r.1, din1, r.2))
            = Except.ok (x, din', m') := hp
        rw [addEntry_beyond hlen] at hp'
        cases hp'
  · refine Or.inr ⟨by rw [hr]; rfl, fun x din' m' hp => ?_⟩
    rw [hx, addEntry_beyond (by rw [himg]; exact hm.len)] at hp
    cases hp

-- ======== the loop

/-- A round starts in the middle of a block. -/
theorem round_eq (off n : Nat) :
    min n ((off / bsize + 1) * bsize - off) = min n (bsize - off % bsize) ∧
      off - off / bsize * bsize = off % bsize := by
  have hb : bsize = 512 := rfl
  rw [hb]
  omega

/-- The loop of `iappend` and the loop of `writei`. -/
theorem appendLoop_sim (fuel off : Nat) (hm : m.Ready)
    (ho : Owned imageSb (m.during inum din)) (hl : (inodeOf din).kind ≠ .free)
    (hfuel : p.length ≤ fuel) :
    (∃ din' m', appendLoop fuel off p din m = .ok (din', off + p.length, m') ∧ m'.Ready ∧
      writeLoop imageSb inum fuel off p (m.during inum din) = .ok (m'.during inum din')) ∨
    ((∃ e, appendLoop fuel off p din m = .error e) ∧
      ∃ e, writeLoop imageSb inum fuel off p (m.during inum din) = .error e) := by
  induction fuel generalizing m din off p with
  | zero =>
    obtain rfl : p = [] := List.length_eq_zero_iff.1 (Nat.le_zero.1 hfuel)
    exact Or.inl ⟨din, m, rfl, hm, rfl⟩
  | succ fuel ih =>
    by_cases h0 : p = []
    · subst h0
      exact Or.inl ⟨din, m, rfl, hm, rfl⟩
    have hlen := List.length_pos_of_ne_nil h0
    by_cases hmax : maxFile ≤ off / bsize
    · unfold appendLoop writeLoop
      rw [if_neg h0, if_neg h0, if_pos hmax, bmap_range hmax]
      exact Or.inr ⟨⟨_, rfl⟩, ⟨_, rfl⟩⟩
    rw [Nat.not_le] at hmax
    obtain ⟨hn1, hoff⟩ := round_eq off p.length
    generalize hn : min p.length (bsize - off % bsize) = n at hn1
    have hmod : off % bsize < bsize := Nat.mod_lt _ (by decide)
    have hl' : ((m.during inum din).mem inum).kind ≠ .free := by rw [during_mem]; exact hl
    have hfills := bmap_fills ho hl' hmax
    rcases place_sim hm ho hl hmax with ⟨x, din1, m1, hp, hm1, hb⟩ | ⟨hb, hstuck⟩
    · rw [hb] at hfills
      obtain ⟨ho1, hown, hk1, hx, hxs, hu⟩ := hfills.place ho (mem_path rfl)
      have hxlt := used_during hu
      have hfs := fssize_lt
      have hxfs : x < fssize := hxs
      generalize hbuf : putBytes (m1.img.blk x) (off % bsize) (p.take n) = buf
      have hset : (m1.wsect x buf).during inum din1 = (m1.during inum din1).setBlk x buf :=
        wsect_during hx (by omega) buf
      have ho2 : Owned imageSb ((m1.wsect x buf).during inum din1) := by
        rw [hset, hown]
        exact (ho1.extends_setBlk (off / bsize) buf).owned
      have hl2 : (inodeOf din1).kind ≠ .free := by
        rw [during_mem, during_mem] at hk1
        rw [hk1]
        exact hl
      -- the rest of the round, on both sides
      have happ : appendLoop (fuel + 1) off p din m
          = appendLoop fuel (off + n) (p.drop n) din1 (m1.wsect x buf) := by
        conv_lhs => unfold appendLoop
        rw [if_neg h0, if_neg (by omega)]
        refine bind_of_ok hp ?_
        dsimp only
        refine bind_of_ok (rsect_ok hm1.len hxfs) ?_
        rw [hn1, hoff, hbuf]
      have hwrite : writeLoop imageSb inum (fuel + 1) off p (m.during inum din)
          = writeLoop imageSb inum fuel (off + n) (p.drop n)
            ((m1.wsect x buf).during inum din1) := by
        conv_lhs => unfold writeLoop
        rw [if_neg h0]
        refine bind_of_ok hb ?_
        dsimp only
        rw [hn, blk_during hx, hbuf, hset]
        rfl
      have hend : off + n + (p.drop n).length = off + p.length := by
        rw [List.length_drop]
        omega
      rw [happ, hwrite, ← hend]
      exact ih _ (hm1.wsect hxlt buf) ho2 hl2 (by rw [List.length_drop]; omega)
    · refine Or.inr ⟨?_, ⟨.outOfBlocks, ?_⟩⟩
      · unfold appendLoop
        rw [if_neg h0, if_neg (by omega)]
        cases hp : m.place din (off / bsize) with
        | error e => exact ⟨e, rfl⟩
        | ok r =>
          obtain ⟨x, din1, m1⟩ := r
          refine ⟨.read, bind_of_ok rfl ?_⟩
          dsimp only
          rw [hstuck x din1 m1 hp]
          rfl
      · unfold writeLoop
        rw [if_neg h0, hb]
        rfl

-- ======== any append

/-- What no append changes or takes back. -/
structure Keeps (m m' : Mkfs) : Prop where
  freeinode : m'.freeinode = m.freeinode
  freeblock : m.freeblock ≤ m'.freeblock

theorem Keeps.refl (m : Mkfs) : Keeps m m := ⟨rfl, Nat.le_refl _⟩

theorem Keeps.trans {m₁ m₂ m₃ : Mkfs} (h : Keeps m₁ m₂) (h' : Keeps m₂ m₃) : Keeps m₁ m₃ :=
  ⟨h'.freeinode.trans h.freeinode, Nat.le_trans h.freeblock h'.freeblock⟩

theorem Keeps.addAddr (m : Mkfs) (din : Din) (k : Nat) : Keeps m (m.addAddr din k).2 := by
  unfold Mkfs.addAddr
  split
  · exact ⟨rfl, Nat.le_succ _⟩
  · exact .refl m

theorem Keeps.addEntry {m : Mkfs} (h : m.addEntry a j = .ok (x, m')) : Keeps m m' := by
  obtain ⟨indirect, -, h⟩ := bind_eq_ok.1 h
  split at h
  · cases h
    exact ⟨rfl, Nat.le_succ _⟩
  · cases h
    exact .refl _

theorem Keeps.place {m : Mkfs} {din : Din}
    (h : m.place din bn = .ok (x, din', m')) : Keeps m m' := by
  unfold Mkfs.place at h
  split at h
  · cases h
    exact .addAddr m din bn
  · obtain ⟨⟨a, m1⟩, h1, h⟩ := bind_eq_ok.1 h
    obtain ⟨⟨x, m2⟩, h2, h⟩ := bind_eq_ok.1 h
    cases h
    exact ((Keeps.addAddr m din ndirect).trans (.addEntry h1)).trans (.addEntry h2)

/-- An append that is not refused. -/
theorem appendLoop_ok (fuel : Nat) {off end' : Nat}
    (hfuel : p.length ≤ fuel) (h : appendLoop fuel off p din m = .ok (din', end', m')) :
    Keeps m m' ∧ (p ≠ [] → off + p.length ≤ maxFile * bsize) := by
  induction fuel generalizing m din off p with
  | zero =>
    cases h
    exact ⟨.refl _, fun hp => absurd (List.length_eq_zero_iff.1 (Nat.le_zero.1 hfuel)) hp⟩
  | succ fuel ih =>
    unfold appendLoop at h
    split at h
    · next hp =>
      cases h
      exact ⟨.refl _, fun h => absurd hp h⟩
    · next hp =>
      split at h
      · cases h
      · next hmax =>
        obtain ⟨⟨x, din1, m1⟩, hplace, h⟩ := bind_eq_ok.1 h
        obtain ⟨buf, -, h⟩ := bind_eq_ok.1 h
        dsimp only at h
        have hlen := List.length_pos_of_ne_nil hp
        have hb : bsize = 512 := rfl
        rw [(round_eq off p.length).1] at h
        generalize hn : min p.length (bsize - off % bsize) = n at h
        obtain ⟨hkeep, hle⟩ := ih (by rw [List.length_drop]; rw [hb] at hn; omega) h
        refine ⟨(Keeps.place hplace).trans ⟨hkeep.freeinode, hkeep.freeblock⟩, fun _ => ?_⟩
        by_cases hrest : p.drop n = []
        · have hall := List.drop_eq_nil_iff.1 hrest
          rw [hb] at hn hmax ⊢
          omega
        · have := hle hrest
          rw [List.length_drop] at this
          omega

-- ======== iappend

theorem iblock_small {inum : Nat} (hi : inum < ninodeblocks * ipb) :
    iblock inum < nmeta ∧ iblock inum < fssize ∧ sector (iblock inum) = iblock inum := by
  have h1 := iblock_lt hi
  have h2 := bmapStart_lt
  have h3 := nmeta_lt
  have h4 := fssize_lt
  exact ⟨by omega, by omega, sector_of_lt (by omega)⟩

theorem rinode_ok (hl : m.img.len = fssize) (hi : inum < ninodeblocks * ipb) :
    m.rinode inum = .ok (dinIn (m.img.blk (iblock inum)) inum) :=
  bind_of_ok (rsect_ok hl (iblock_small hi).2.1) rfl

theorem winode_ok (hl : m.img.len = fssize) (hi : inum < ninodeblocks * ipb) (din : Din) :
    m.winode inum din = .ok (m.wsect (iblock inum) (putDin (m.img.blk (iblock inum)) inum din)) :=
  bind_of_ok (rsect_ok hl (iblock_small hi).2.1) rfl

/-- An inode that is written is on the disk. -/
theorem view_winode (hi : inum < ninodeblocks * ipb) (din : Din) :
    (m.wsect (iblock inum) (putDin (m.img.blk (iblock inum)) inum din)).view
      = iupdate (m.view.setMem inum (inodeOf din)) inum := by
  obtain ⟨hmeta, _, hsec⟩ := iblock_small hi
  have hin : (m.wsect (iblock inum) (putDin (m.img.blk (iblock inum)) inum din)).img.inodes
      = update m.img.inodes inum (inodeOf din) := Image.inodes_putDin hi din
  have hblk : (fun b => if b < nmeta then fun _ => 0
      else update m.img.blk (iblock inum) (putDin (m.img.blk (iblock inum)) inum din) b)
      = m.view.blk := by
    funext b
    unfold view
    dsimp only
    split
    · rfl
    · rw [update_of_ne (by omega)]
  unfold iupdate FsState.setMem
  dsimp only
  rw [update_self]
  unfold view
  dsimp only
  rw [hin]
  unfold wsect Image.wsect
  dsimp only
  rw [hsec, hblk]
  rfl

theorem Ready.winode (hm : m.Ready) (hi : inum < ninodeblocks * ipb) (buf : Block) :
    (m.wsect (iblock inum) buf).Ready := by
  have hstart := hm.start
  exact hm.wsect (Nat.lt_of_lt_of_le (iblock_small hi).1 hstart) buf

theorem inodeOf_rinode (hi : inum < ninodeblocks * ipb) :
    inodeOf (dinIn (m.img.blk (iblock inum)) inum) = m.view.mem inum := by
  show _ = m.img.inodes inum
  unfold Image.inodes
  rw [if_pos hi]
  rfl

theorem during_self (hi : inum < ninodeblocks * ipb) :
    m.during inum (dinIn (m.img.blk (iblock inum)) inum) = m.view := by
  unfold during FsState.setMem
  rw [inodeOf_rinode hi, update_eq_self]

theorem setMem_during (din : Din) (ip : Dinode) :
    (m.during inum din).setMem inum ip = m.view.setMem inum ip := by
  unfold during FsState.setMem
  dsimp only
  rw [update_idem]

theorem freeBlocks_view (m : Mkfs) : (freeBlocks imageSb m.view).card = fssize - m.freeblock := by
  have : freeBlocks imageSb m.view = Finset.Ico m.freeblock fssize := by
    ext b
    rw [mem_freeBlocks, Finset.mem_Ico]
    show b < fssize ∧ decide (b < m.freeblock) = false ↔ _
    rw [decide_eq_false_iff_not]
    omega
  rw [this, Nat.card_Ico]

/-- `iappend` appends, unless the file gets too large or there are not
blocks enough. -/
theorem iappend_spec (hm : m.Ready) (hf : Formatted imageSb m.view)
    (hi : inum < ninodeblocks * ipb) (hl : (m.view.mem inum).kind ≠ .free)
    (hp : p ≠ []) {size : Nat} (hsize : (m.view.mem inum).size = size) :
    (∃ m', m.iappend inum p = .ok m' ∧ m'.Ready ∧ m'.freeinode = m.freeinode ∧
      Updated imageSb inum size p m.view m'.view ∧ m'.freeblock + blocksFor (nblocks size)
        = m.freeblock + blocksFor (nblocks (size + p.length))) ∨
    ((∃ e, m.iappend inum p = .error e) ∧ (size + p.length ≤ maxFile * bsize →
        fssize + blocksFor (nblocks size)
          < m.freeblock + blocksFor (nblocks (size + p.length)))) := by
  have hrin := rinode_ok hm.len hi
  have hself := during_self (m := m) hi
  have hino := inodeOf_rinode (m := m) hi
  generalize dinIn (m.img.blk (iblock inum)) inum = din at hrin hself hino
  have hdin : din.size = size := by
    rw [← hsize, ← hino]
    rfl
  have hpos := List.length_pos_of_ne_nil hp
  have hnb : max (nblocks size) (nblocks (size + p.length)) = nblocks (size + p.length) :=
    Nat.max_eq_right (nblocks_mono (Nat.le_add_right _ _))
  have hoff : size ≤ nblocks size * bsize := nblocks_le.1 (Nat.le_refl _)
  have hshape := hf.files inum hl
  rw [hsize] at hshape
  have hle := hm.le
  rcases appendLoop_sim p.length size (p := p) hm (by rw [hself]; exact hf.owned)
      (by rw [hino]; exact hl) (Nat.le_refl _) with
    ⟨din1, m1, happ, hm1, hw⟩ | ⟨⟨e, happ⟩, e', hw⟩
  · rw [hself] at hw
    obtain ⟨hkeep, hmax⟩ := appendLoop_ok p.length (Nat.le_refl _) happ
    have hmax := hmax hp
    have hword : size + p.length < 2 ^ 32 := Nat.lt_of_le_of_lt hmax (by decide)
    rcases writeLoop_spec p.length hf.owned hl hshape hoff hmax (Nat.le_refl _) with
      ⟨t, ht, hwrote, hcost⟩ | ⟨herr, _⟩
    · rw [hw] at ht
      injection ht with ht
      subst ht
      have hwin := winode_ok hm1.len hi (din1.setSize (size + p.length))
      have hview := view_winode (m := m1) hi (din1.setSize (size + p.length))
      rw [inodeOf_setSize din1 hword, ← setMem_during din1, ← during_mem m1 inum din1] at hview
      have hup : Updated imageSb inum size p m.view _ :=
        Wrote.updated_beyond hf (Nat.le_of_eq hsize.symm) (by rw [hsize]; exact hwrote) (by omega)
      rw [← hview] at hup
      refine Or.inl ⟨_, ?_, hm1.winode hi _, hkeep.freeinode, hup, ?_⟩
      · refine bind_of_ok hrin ?_
        rw [hdin]
        exact bind_of_ok happ hwin
      · have hfree : (freeBlocks imageSb (m1.during inum din1)).card = fssize - m1.freeblock :=
          freeBlocks_view m1
        have hle1 := hm1.le
        have hmono := hkeep.freeblock
        rw [hfree, freeBlocks_view, hnb] at hcost
        show m1.freeblock + _ = _
        omega
    · rw [hw] at herr
      cases herr
  · right
    rw [hself] at hw
    refine ⟨⟨e, ?_⟩, fun hmax => ?_⟩
    · refine bind_of_ok hrin ?_
      rw [hdin, happ]
      rfl
    · rcases writeLoop_spec p.length hf.owned hl hshape hoff hmax (Nat.le_refl _) with
        ⟨t, ht, _, _⟩ | ⟨_, hc⟩
      · rw [hw] at ht
        cases ht
      · rw [freeBlocks_view, hnb] at hc
        omega

end Mkfs

end Xv6Sume32.Fs
