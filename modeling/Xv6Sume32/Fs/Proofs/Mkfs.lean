/-
The image that `mkfs` builds, read by the kernel.

# The loop over the input files

`Made` says what the unfinished image holds after some of the files: as
seen by the kernel it is a disk of files without holes, the root directory
has an entry for each file, and `freeblock` is the sum of what they take
(`spent`). A file is added by an append to the root directory and one for
each part read, which is what `iappend_spec` is about.

# The end

Two things are left. The bitmap is written over its block, which is part
of no file and holds no inode as long as the inodes fit into their blocks.
And the size of the root directory is rounded up to the next block, also
when it is a whole number of blocks already: then its last block is not
there.
-/
import Xv6Sume32.Fs.Proofs.Append

namespace Xv6Sume32.Fs

open Lib
open Function (update update_of_ne update_self)

variable {files : List InputFile} {k w : Nat} {din : Din}

-- ======== single steps

namespace Mkfs

variable {m m₁ m₂ m3 : Mkfs} {inum : Nat} {p q : List Byte}

/-- `p` is appended to an inode; nothing else changes. -/
structure Appended (inum : Nat) (p : List Byte) (m m' : Mkfs) : Prop where
  ready : m'.Ready
  formatted : Formatted imageSb m'.view
  freeinode : m'.freeinode = m.freeinode
  kind : (m'.view.mem inum).kind = (m.view.mem inum).kind
  bytes : contents m'.view inum = contents m.view inum ++ p
  others : ∀ i, i ≠ inum → m'.view.mem i = m.view.mem i ∧ contents m'.view i = contents m.view i
  blocks : m'.freeblock + blocksFor (nblocks (m.view.mem inum).size)
    = m.freeblock + blocksFor (nblocks ((m.view.mem inum).size + p.length))

theorem contents_length (s : FsState) (i : Nat) : (contents s i).length = (s.mem i).size :=
  firstOf_length _ _

theorem Appended.size (h : Appended inum p m₁ m₂) :
    (m₂.view.mem inum).size = (m₁.view.mem inum).size + p.length := by
  rw [← contents_length, h.bytes, List.length_append, contents_length]

theorem Appended.refl (hm : m.Ready) (hf : Formatted imageSb m.view) : Appended inum [] m m :=
  ⟨hm, hf, rfl, rfl, (List.append_nil _).symm, fun _ _ => ⟨rfl, rfl⟩, rfl⟩

theorem Appended.trans (h : Appended inum p m₁ m₂) (h' : Appended inum q m₂ m3) :
    Appended inum (p ++ q) m₁ m3 where
  ready := h'.ready
  formatted := h'.formatted
  freeinode := h'.freeinode.trans h.freeinode
  kind := h'.kind.trans h.kind
  bytes := by rw [h'.bytes, h.bytes, List.append_assoc]
  others := fun i hi =>
    ⟨(h'.others i hi).1.trans (h.others i hi).1, (h'.others i hi).2.trans (h.others i hi).2⟩
  blocks := by
    have h1 := h.blocks
    have h2 := h'.blocks
    rw [h.size] at h2
    rw [List.length_append, ← Nat.add_assoc]
    omega

/-- An append that makes the file too large, or takes more blocks than
there are. -/
def Overflows (inum : Nat) (p : List Byte) (m : Mkfs) : Prop :=
  (m.view.mem inum).size + p.length ≤ maxFile * bsize →
    fssize + blocksFor (nblocks (m.view.mem inum).size)
      < m.freeblock + blocksFor (nblocks ((m.view.mem inum).size + p.length))

theorem iappend_cases (hm : m.Ready) (hf : Formatted imageSb m.view)
    (hi : inum < ninodeblocks * ipb) (hl : (m.view.mem inum).kind ≠ .free) (hp : p ≠ []) :
    (∃ m', m.iappend inum p = .ok m' ∧ Appended inum p m m') ∨
      ((∃ e, m.iappend inum p = .error e) ∧ Overflows inum p m) := by
  rcases iappend_spec hm hf hi hl hp rfl with ⟨m', hr, hm', hino, hup, hcost⟩ | ⟨he, hov⟩
  · refine Or.inl ⟨m', hr, ⟨hm', hup.formatted, hino, hup.kind, ?_, hup.others, hcost⟩⟩
    rw [hup.bytes, splice, ← contents_length, List.take_length, List.drop_eq_nil_of_le (by omega),
      List.append_nil]
  · exact Or.inr ⟨he, hov⟩

/-- The parts of a file, one after the other. -/
theorem appendAll_cases (reads : List Chunk) (hm : m.Ready) (hf : Formatted imageSb m.view)
    (hi : inum < ninodeblocks * ipb) (hl : (m.view.mem inum).kind ≠ .free) :
    (∃ m', reads.foldlM (fun m chunk => m.iappend inum chunk.val) m = .ok m' ∧
        Appended inum (reads.map (·.val)).flatten m m') ∨
      ((∃ e, reads.foldlM (fun m chunk => m.iappend inum chunk.val) m = .error e) ∧
        Overflows inum (reads.map (·.val)).flatten m) := by
  induction reads generalizing m with
  | nil => exact Or.inl ⟨m, rfl, .refl hm hf⟩
  | cons chunk reads ih =>
    have hne : chunk.val ≠ [] := List.ne_nil_of_length_pos chunk.property.1
    rw [List.map_cons, List.flatten_cons]
    rcases iappend_cases hm hf hi hl hne with ⟨m₁, hr, happ⟩ | ⟨⟨e, hr⟩, hov⟩
    · have hfold : (chunk :: reads).foldlM (fun m chunk => m.iappend inum chunk.val) m
          = reads.foldlM (fun m chunk => m.iappend inum chunk.val) m₁ := by
        rw [List.foldlM_cons]
        exact bind_of_ok hr rfl
      rw [hfold]
      rcases ih happ.ready happ.formatted (by rw [happ.kind]; exact hl) with
        ⟨m₂, hr2, happ2⟩ | ⟨he, hov⟩
      · exact Or.inl ⟨m₂, hr2, happ.trans happ2⟩
      · refine Or.inr ⟨he, fun hmax => ?_⟩
        have h1 := happ.blocks
        unfold Overflows at hov
        rw [happ.size] at hov
        rw [List.length_append, ← Nat.add_assoc] at hmax ⊢
        have := hov hmax
        omega
    · refine Or.inr ⟨⟨e, ?_⟩, fun hmax => ?_⟩
      · rw [List.foldlM_cons, hr]
        rfl
      · rw [List.length_append, ← Nat.add_assoc] at hmax ⊢
        have h1 := hov (by omega)
        have h2 := blocksFor_mono (nblocks_mono (Nat.le_add_right
          ((m.view.mem inum).size + chunk.val.length) (reads.map (·.val)).flatten.length))
        omega

theorem inodeOf_alloc (type : BitVec 16) :
    inodeOf (.alloc type) = ⟨kindOf type, 0, 1, 0, fun _ => 0⟩ := by
  have h0 : Din.alloc type 0 = 0#16 ++ type := rfl
  have h1 : Din.alloc type 1 = 1#16 ++ 0#16 := rfl
  have ha : ∀ k, (Din.alloc type).addr k = 0 := fun k => by
    unfold Din.addr Din.alloc
    rw [update_of_ne (by omega), update_of_ne (by omega)]
    rfl
  have hlo : (0#16 ++ type).extractLsb' 0 16 = type := BitVec.extractLsb'_append_eq_right
  have hhi : (0#16 ++ type).extractLsb' 16 16 = 0#16 := BitVec.extractLsb'_append_eq_left
  unfold inodeOf
  simp only [ha, h0, h1, hlo, hhi]
  simp [Din.alloc, Din.size]

/-- A new inode, with a number in the inode blocks. -/
theorem ialloc_ok (hm : m.Ready) (hf : Formatted imageSb m.view)
    (hi : m.freeinode < ninodeblocks * ipb) (type : BitVec 16) :
    ∃ m', m.ialloc type = .ok (m.freeinode, m') ∧ m'.Ready ∧ Formatted imageSb m'.view ∧
      m'.freeinode = m.freeinode + 1 ∧ m'.freeblock = m.freeblock ∧
      m'.view.mem m.freeinode = ⟨kindOf type, 0, 1, 0, fun _ => 0⟩ ∧ ∀ i, i ≠ m.freeinode →
        m'.view.mem i = m.view.mem i ∧ contents m'.view i = contents m.view i := by
  generalize hinum : m.freeinode = inum at hi
  generalize hm1 : ({ m with freeinode := inum + 1 } : Mkfs) = m1
  have hview : m1.view = m.view := by rw [← hm1]; rfl
  have hready : m1.Ready := by
    rw [← hm1]
    exact ⟨hm.len, hm.start, hm.le, hm.zero⟩
  generalize ht : iupdate (m.view.setMem inum (inodeOf (.alloc type))) inum = t
  have hvt : (m1.wsect (iblock inum)
      (putDin (m1.img.blk (iblock inum)) inum (.alloc type))).view = t := by
    rw [view_winode hi, hview, ht]
  have hself : t.mem inum = ⟨kindOf type, 0, 1, 0, fun _ => 0⟩ := by
    rw [← ht, ← inodeOf_alloc]
    exact update_self ..
  have hmem : ∀ i, i ≠ inum → t.mem i = m.view.mem i := by
    rw [← ht]
    exact fun i hi => update_of_ne hi _ _
  have hblk : t.blk = m.view.blk := by rw [← ht]; rfl
  have hzero : ∀ p, own t inum p = 0 := by
    refine own_empty fun n _ => ?_
    rw [hself]
  have hother : ∀ i p, i ≠ inum → own t i p = own m.view i p :=
    fun i p hi => own_of_mem (hmem i hi) hblk p
  refine ⟨m1.wsect (iblock inum) (putDin (m1.img.blk (iblock inum)) inum (.alloc type)),
    ?_, hready.winode hi _, ?_, by rw [← hm1]; rfl, by rw [← hm1]; rfl, ?_, ?_⟩
  · unfold ialloc
    rw [hinum, hm1]
    exact bind_of_ok (winode_ok hready.len hi _) rfl
  · rw [hvt]
    refine hf.update (i := inum) (hf.owned.of_own ?_ fun i p hne => ?_) hmem hother ?_ fun _ => ?_
    · rw [← ht]
      rfl
    · exact hother i p fun he => hne (by rw [he]; exact hzero p)
    · rw [← ht]
      rfl
    · have h0 : nblocks 0 = 0 := by decide
      rw [hself, h0]
      exact .empty hzero
  · rw [hvt, hself]
  · intro i hi
    rw [hvt]
    refine ⟨hmem i hi, ?_⟩
    unfold contents
    rw [hmem i hi, fileByte_of_own hblk fun p => hother i p hi]

-- ======== the start

theorem zeroes_eq (n : Nat) (hn : n ≤ fssize) :
    (List.range n).foldl (fun img i => Image.wsect img i fun _ => 0) ⟨0, fun _ _ => 0⟩
      = ⟨n, fun _ _ => 0⟩ := by
  induction n with
  | zero => rfl
  | succ n ih =>
    have := fssize_lt
    rw [List.range_succ, List.foldl_append, ih (by omega)]
    show Image.wsect _ n _ = _
    unfold Image.wsect
    dsimp only
    rw [sector_of_lt (by omega), Nat.max_eq_right (Nat.le_succ n), Function.update_eq_self_iff.2 rfl]

/-- All blocks but the superblock are clear. -/
theorem start_img : ∃ sb, start = ⟨⟨fssize, update (fun _ _ => 0) 1 sb⟩, 1, nmeta⟩ := by
  unfold start
  dsimp only
  rw [zeroes_eq fssize (Nat.le_refl _)]
  exact ⟨_, rfl⟩

theorem start_ready : start.Ready := by
  obtain ⟨sb, hstart⟩ := start_img
  rw [hstart]
  refine ⟨rfl, Nat.le_refl _, Nat.le_of_lt nmeta_lt, fun b hb => ?_⟩
  have h1 : 1 < nmeta := by decide
  have hb' : nmeta ≤ b := hb
  show update (fun _ _ => 0) 1 sb b = _
  rw [update_of_ne (by omega)]

/-- The kernel would see an empty disk. -/
theorem start_view : start.view = emptyImage imageSb := by
  obtain ⟨sb, hstart⟩ := start_img
  have hin : start.img.inodes = fun _ => .fresh .free := by
    funext i
    unfold Image.inodes Image.inodeAt
    split
    · have h1 : iblock i ≠ 1 := by
        show i / 8 + 32 ≠ 1
        omega
      rw [hstart]
      dsimp only
      rw [update_of_ne h1]
      simp [inodeOf, dinIn, kindOf, Din.size, Din.addr, Dinode.fresh]
    · rfl
  have hblk : (fun b => if b < nmeta then fun _ => 0 else start.img.blk b) = fun _ _ => 0 := by
    funext b
    split
    · rfl
    · next hb => exact start_ready.zero b (Nat.not_lt.1 hb)
  unfold view
  rw [hin, hblk, hstart]
  rfl

-- ======== the root, begun

/-- The entries of the root directory: one for each file and its own two. -/
def rootBytes (files : List InputFile) : Nat := 16 * (files.length + 2)

/-- The first block that is free after some files. -/
def spent (files : List InputFile) : Nat :=
  nmeta + blocksFor (nblocks (rootBytes files))
    + (files.map fun f => blocksFor (nblocks f.bytes.length)).sum

/-- What an image holds after some files. -/
structure Made (files : List InputFile) (m : Mkfs) : Prop where
  ready : m.Ready
  formatted : Formatted imageSb m.view
  freeinode : m.freeinode = files.length + 2
  freeblock : m.freeblock = spent files
  rootKind : (m.view.mem rootIno).kind = .dir
  rootSize : (m.view.mem rootIno).size = rootBytes files
  file : ∀ k f, files[k]? = some f →
    (m.view.mem (k + 2)).kind = .file ∧ contents m.view (k + 2) = f.bytes

theorem dirent_length (inum : Nat) (name : List Byte) : (dirent inum name).length = 16 := by
  unfold dirent
  simp only [List.length_append, List.length_cons, List.length_nil, List.length_take,
    List.length_replicate]
  omega

theorem dirent_ne_nil (inum : Nat) (name : List Byte) : dirent inum name ≠ [] :=
  List.cons_ne_nil _ _

/-- The part of `mkfs` before the loop. -/
def root : Except MkfsExit Mkfs := do
  let (ino, m) ← start.ialloc tDir
  if ino ≠ rootIno then .error .assertion
  else do
    let m ← m.iappend rootIno (dirent rootIno [46])
    m.iappend rootIno (dirent rootIno [46, 46])

theorem root_made : ∃ m, root = .ok m ∧ Made [] m := by
  have hf : Formatted imageSb start.view := by
    rw [start_view]
    exact emptyImage_formatted imageSb (by decide) (by decide)
  have hroot : rootIno < ninodeblocks * ipb := by decide
  obtain ⟨sb, hstart⟩ := start_img
  have hone : start.freeinode = rootIno := by rw [hstart]; rfl
  obtain ⟨m₀, hr₀, hm0, hf0, hino0, hblk0, hnew0, -⟩ :=
    ialloc_ok start_ready hf (by rw [hone]; exact hroot) tDir
  rw [hone] at hr₀ hnew0 hino0
  have hk₀ : (m₀.view.mem rootIno).kind = .dir := by rw [hnew0]; rfl
  have hsize0 : (m₀.view.mem rootIno).size = 0 := by rw [hnew0]
  have hfree0 : m₀.freeblock = 59 := by rw [hblk0, hstart]; rfl
  rcases iappend_cases hm0 hf0 hroot (by rw [hk₀]; exact nofun) (dirent_ne_nil rootIno [46]) with
    ⟨m₁, hr1, h₁⟩ | ⟨-, hov⟩
  · have hsize1 := h₁.size
    have hblk1 := h₁.blocks
    rw [hsize0, dirent_length] at hsize1 hblk1
    have e0 : blocksFor (nblocks 0) = 0 := by decide
    have e1 : blocksFor (nblocks (0 + 16)) = 1 := by decide
    rcases iappend_cases h₁.ready h₁.formatted hroot (by rw [h₁.kind, hk₀]; exact nofun)
      (dirent_ne_nil rootIno [46, 46]) with ⟨m₂, hr2, h₂⟩ | ⟨-, hov⟩
    · have hsize2 := h₂.size
      have hblk2 := h₂.blocks
      rw [hsize1, dirent_length] at hsize2 hblk2
      refine ⟨m₂, ?_, h₂.ready, h₂.formatted, ?_, ?_, ?_, hsize2, nofun⟩
      · refine bind_of_ok hr₀ ?_
        dsimp only
        rw [if_neg (by decide)]
        exact bind_of_ok hr1 hr2
      · rw [h₂.freeinode, h₁.freeinode, hino0]
        rfl
      · have e2 : blocksFor (nblocks (0 + 16 + 16)) = 1 := by decide
        have e3 : spent [] = 60 := by decide
        omega
      · rw [h₂.kind, h₁.kind, hk₀]
    · have hfree1 : m₁.freeblock = 60 := by omega
      unfold Overflows at hov
      rw [hsize1, dirent_length, hfree1] at hov
      exact absurd (hov (by decide)) (by decide)
  · unfold Overflows at hov
    rw [hsize0, dirent_length, hfree0] at hov
    exact absurd (hov (by decide)) (by decide)

-- ======== another file

theorem rootBytes_snoc (files : List InputFile) (f : InputFile) :
    rootBytes (files ++ [f]) = rootBytes files + 16 := by
  unfold rootBytes
  rw [List.length_append, List.length_singleton]
  omega

theorem spent_snoc (files : List InputFile) (f : InputFile) :
    spent (files ++ [f]) + blocksFor (nblocks (rootBytes files))
      = spent files + blocksFor (nblocks (rootBytes files + 16))
        + blocksFor (nblocks f.bytes.length) := by
  unfold spent
  rw [rootBytes_snoc, List.map_append, List.sum_append, List.map_singleton, List.sum_singleton]
  omega

/-- A file is added, unless its name, its size or the blocks do not allow
it. -/
theorem addFile_cases (h : Made files m)
    (hn : files.length + 2 < ninodeblocks * ipb) (f : InputFile) :
    (∃ m', m.addFile f = .ok m' ∧ Made (files ++ [f]) m') ∨ ((∃ e, m.addFile f = .error e) ∧
        (47#8 ∉ f.name → f.bytes.length ≤ maxFile * bsize → fssize < spent (files ++ [f]))) := by
  by_cases hname : 47#8 ∈ f.name
  · refine Or.inr ⟨⟨.assertion, ?_⟩, fun hno => absurd hname hno⟩
    unfold addFile
    rw [if_pos hname]
  have hspent := spent_snoc files f
  have hlen : files.length + 2 < 208 := hn
  have hroot : rootIno < ninodeblocks * ipb := by decide
  have hfi := h.freeinode
  -- the inode
  obtain ⟨m₁, hr1, hm₁, hf1, hino1, hblk1, hnew1, hkeep1⟩ :=
    ialloc_ok h.ready h.formatted (by rw [hfi]; exact hn) tFile
  rw [hfi] at hr1 hino1 hnew1 hkeep1
  rw [h.freeblock] at hblk1
  have hroot1 := hkeep1 rootIno (by unfold rootIno; omega)
  obtain ⟨name, hadd⟩ : ∃ name, m.addFile f
      = (m₁.iappend rootIno (dirent (files.length + 2) name) >>= fun m =>
          f.reads.foldlM (fun m chunk => m.iappend (files.length + 2) chunk.val) m) := by
    refine ⟨if f.name.head? = some 95#8 then f.name.tail else f.name, ?_⟩
    unfold addFile
    rw [if_neg hname]
    exact bind_of_ok hr1 rfl
  rw [hadd]
  -- the entry of the directory
  have hsize1 : (m₁.view.mem rootIno).size = rootBytes files := by
    rw [hroot1.1, h.rootSize]
  rcases iappend_cases hm₁ hf1 hroot (by rw [hroot1.1, h.rootKind]; exact nofun)
    (dirent_ne_nil (files.length + 2) name) with ⟨m₂, hr2, h₂⟩ | ⟨⟨e, hr2⟩, hov⟩
  · have hsize2 := h₂.size
    have hblk2 := h₂.blocks
    rw [hsize1, dirent_length] at hsize2 hblk2
    have hne : files.length + 2 ≠ rootIno := by unfold rootIno; omega
    have hnew2 := (h₂.others _ hne).1
    rw [hnew1] at hnew2
    have hk2 : (m₂.view.mem (files.length + 2)).kind = .file := by rw [hnew2]; rfl
    have hsz2 : (m₂.view.mem (files.length + 2)).size = 0 := by rw [hnew2]
    have hnil2 : contents m₂.view (files.length + 2) = [] :=
      List.length_eq_zero_iff.1 ((contents_length _ _).trans hsz2)
    have e0 : blocksFor (nblocks 0) = 0 := by decide
    -- the bytes
    rcases appendAll_cases f.reads h₂.ready h₂.formatted hn (by rw [hk2]; exact nofun) with
      ⟨m3, hr3, h₃⟩ | ⟨⟨e, hr3⟩, hov⟩
    · have hblk3 := h₃.blocks
      rw [hsz2, Nat.zero_add] at hblk3
      change _ = _ + blocksFor (nblocks f.bytes.length) at hblk3
      have hroot3 := (h₃.others rootIno hne.symm).1
      refine Or.inl ⟨m3, bind_of_ok hr2 hr3, h₃.ready, h₃.formatted, ?_, by omega, ?_, ?_, ?_⟩
      · rw [h₃.freeinode, h₂.freeinode, hino1, List.length_append, List.length_singleton]
      · rw [hroot3, h₂.kind, hroot1.1, h.rootKind]
      · rw [hroot3, hsize2, rootBytes_snoc]
      · intro k g hk
        by_cases hlt : k < files.length
        · rw [List.getElem?_append_left hlt] at hk
          have hne3 : k + 2 ≠ files.length + 2 := by omega
          have hne2 : k + 2 ≠ rootIno := by unfold rootIno; omega
          rw [(h₃.others _ hne3).1, (h₃.others _ hne3).2, (h₂.others _ hne2).1,
            (h₂.others _ hne2).2, (hkeep1 _ hne3).1, (hkeep1 _ hne3).2]
          exact h.file k g hk
        · rw [List.getElem?_append_right (Nat.not_lt.1 hlt)] at hk
          rw [List.getElem?_singleton, Option.ite_none_right_eq_some] at hk
          obtain ⟨hk0, hg⟩ := hk
          obtain rfl : k = files.length := by omega
          obtain rfl : f = g := Option.some.inj hg
          rw [h₃.kind, hk2, h₃.bytes, hnil2]
          exact ⟨rfl, rfl⟩
    · refine Or.inr ⟨⟨e, bind_of_ok hr2 hr3⟩, fun _ hmax => ?_⟩
      unfold Overflows at hov
      rw [hsz2, Nat.zero_add] at hov
      have : _ < _ + blocksFor (nblocks f.bytes.length) := hov hmax
      omega
  · refine Or.inr ⟨⟨e, by rw [hr2]; rfl⟩, fun _ _ => ?_⟩
    unfold Overflows at hov
    rw [hsize1, dirent_length] at hov
    have hmax : rootBytes files + 16 ≤ maxFile * bsize := by
      have : maxFile * bsize = 8394752 := rfl
      unfold rootBytes
      omega
    have := hov hmax
    omega

-- ======== all the files

/-- The files fit into the image: there is an inode for each of them in
the inode blocks, no name is a path, no file is too large, and there are
blocks enough. -/
structure Fits (files : List InputFile) : Prop where
  inodes : files.length + 2 ≤ ninodeblocks * ipb
  names : ∀ f ∈ files, 47#8 ∉ f.name
  sizes : ∀ f ∈ files, f.bytes.length ≤ maxFile * bsize
  blocks : spent files ≤ fssize

theorem spent_mono (files rest : List InputFile) : spent files ≤ spent (files ++ rest) := by
  have hroot : rootBytes files ≤ rootBytes (files ++ rest) := by
    unfold rootBytes
    rw [List.length_append]
    omega
  have := blocksFor_mono (nblocks_mono hroot)
  unfold spent
  rw [List.map_append, List.sum_append]
  omega

theorem addFiles_cases (rest : List InputFile) (h : Made files m)
    (hn : files.length + rest.length + 2 ≤ ninodeblocks * ipb) :
    (∃ m', rest.foldlM addFile m = .ok m' ∧ Made (files ++ rest) m') ∨
      ((∃ e, rest.foldlM addFile m = .error e) ∧ ¬ Fits (files ++ rest)) := by
  induction rest generalizing files m with
  | nil =>
    rw [List.append_nil]
    exact Or.inl ⟨m, rfl, h⟩
  | cons f rest ih =>
    rw [List.length_cons] at hn
    rw [List.foldlM_cons, List.append_cons]
    rcases addFile_cases h (by omega) f with ⟨m₁, hr, h₁⟩ | ⟨⟨e, hr⟩, hover⟩
    · rw [hr]
      exact ih h₁ (by rw [List.length_append, List.length_singleton]; omega)
    · refine Or.inr ⟨⟨e, by rw [hr]; rfl⟩, fun hfits => ?_⟩
      have hmem : f ∈ files ++ [f] ++ rest := by simp
      have hmono := spent_mono (files ++ [f]) rest
      have := hover (hfits.names f hmem) (hfits.sizes f hmem)
      have := hfits.blocks
      omega

/-- The part of `mkfs` after the loop. -/
def finish (m : Mkfs) : Except MkfsExit Mkfs := do
  let m ← m.fixRoot
  m.balloc m.freeblock

theorem mkfs_eq (files : List InputFile) :
    mkfs files = root >>= fun m => files.foldlM addFile m >>= finish := by
  unfold mkfs root finish
  cases start.ialloc tDir with
  | error e => rfl
  | ok r =>
    obtain ⟨ino, m⟩ := r
    show (if ino ≠ rootIno then _ else _) = (if ino ≠ rootIno then _ else _) >>= _
    split
    · rfl
    · cases m.iappend rootIno (dirent rootIno [46]) with
      | error e => rfl
      | ok m => rfl

-- ======== the bitmap

theorem bitmap_getLsbD (used : Nat) {j : Nat} (hk : k < 8) :
    (bitmap used j).getLsbD k = decide (8 * j + k < used) := by
  unfold bitmap
  induction used with
  | zero => simp
  | succ n ih =>
    rw [List.range_succ, List.foldl_append, List.foldl_cons, List.foldl_nil]
    by_cases hj : j = n / 8
    · subst hj
      rw [update_self, BitVec.getLsbD_or, ih]
      have hbit : (1#8 <<< (n % 8)).getLsbD k = decide (k = n % 8) := by
        rw [BitVec.getLsbD_shiftLeft, BitVec.getLsbD_one, ← Bool.decide_and]
        have : n % 8 < 8 := Nat.mod_lt _ (by decide)
        grind
      rw [hbit, ← Bool.decide_or]
      exact decide_eq_decide.2 (by omega)
    · rw [update_of_ne hj, ih]
      exact decide_eq_decide.2 (by omega)

theorem ofBytes_getLsbD (f : Nat → Byte) (w : Nat) (hk : k < 32) :
    (ofBytes f w).getLsbD k = (f (4 * w + k / 8)).getLsbD (k % 8) := by
  unfold ofBytes ofLe
  rw [BitVec.getLsbD_append, BitVec.getLsbD_append, BitVec.getLsbD_append]
  by_cases h1 : k < 8
  · rw [if_pos h1, Nat.div_eq_of_lt h1, Nat.mod_eq_of_lt h1, Nat.add_zero]
  rw [if_neg h1]
  by_cases h2 : k < 16
  · rw [if_pos (by omega), show k / 8 = 1 by omega, show k % 8 = k - 8 by omega]
  rw [if_neg (by omega)]
  by_cases h3 : k < 24
  · rw [if_pos (by omega), show k / 8 = 2 by omega, show k % 8 = k - 8 - 8 by omega]
  · rw [if_neg (by omega), show k / 8 = 3 by omega, show k % 8 = k - 8 - 8 - 8 by omega]

/-- Bit `k` of a word of the bitmap. -/
theorem bitmap_word (used w : Nat) (hk : k < 32) :
    (ofBytes (bitmap used) w).getLsbD k = decide (32 * w + k < used) := by
  rw [ofBytes_getLsbD _ _ hk, bitmap_getLsbD used (Nat.mod_lt _ (by decide))]
  exact decide_eq_decide.2 (by omega)

/-- The size of the root directory at the end. -/
def fixedSize (files : List InputFile) : Nat := (rootBytes files / bsize + 1) * bsize

/-- What the kernel finds in the image. -/
structure Finished (files : List InputFile) (m : Mkfs) : Prop where
  consistent : Consistent imageSb m.img.kernel
  used : ∀ b, b < bpb → m.img.kernel.used b = decide (b < m.freeblock)
  rootKind : (m.img.kernel.mem rootIno).kind = .dir
  rootSize : (m.img.kernel.mem rootIno).size = fixedSize files
  rootShape : Shaped m.img.kernel rootIno (nblocks (rootBytes files))
  file : ∀ k f, files[k]? = some f → (m.img.kernel.mem (k + 2)).kind = .file ∧
    Shaped m.img.kernel (k + 2) (nblocks (m.img.kernel.mem (k + 2)).size) ∧
    contents m.img.kernel (k + 2) = f.bytes

/-- The bitmap and the kernel's bits. -/
theorem used_wsect (img : Image) (used : Nat) {b : Nat} (hb : b < bpb) :
    (img.wsect bmapStart (ofBytes (bitmap used))).used b = decide (b < used) := by
  unfold Image.used Image.wsect
  dsimp only
  rw [Nat.div_eq_of_lt hb, Nat.zero_add, sector_of_lt (by decide), update_self,
    byteAt_ofBytes, Nat.mod_eq_of_lt hb, bitmap_getLsbD used (Nat.mod_lt _ (by decide)),
    Nat.div_add_mod]

/-- The image that is left, given the inode of the root directory. -/
theorem finish_eq (hm : m.Ready)
    (hdin : dinIn (m.img.blk (iblock rootIno)) rootIno = din) :
    m.finish = .ok ((m.wsect (iblock rootIno) (putDin (m.img.blk (iblock rootIno)) rootIno
      (din.setSize ((din.size / bsize + 1) * bsize)))).wsect
        bmapStart (ofBytes (bitmap m.freeblock))) := by
  subst hdin
  have hroot : rootIno < ninodeblocks * ipb := by decide
  have hle := hm.le
  have hbpb : fssize < bpb := by decide
  refine bind_of_ok (bind_of_ok (rinode_ok hm.len hroot) (winode_ok hm.len hroot _)) ?_
  unfold balloc
  rw [if_neg (by show ¬ bpb ≤ m.freeblock; omega)]
  rfl

theorem finish_spec (h : Made files m)
    (hn : files.length + 2 ≤ ninodeblocks * ipb) : ∃ m', m.finish = .ok m' ∧ Finished files m' := by
  have hroot : rootIno < ninodeblocks * ipb := by decide
  have hrinode := inodeOf_rinode (m := m) hroot
  generalize hdin0 : dinIn (m.img.blk (iblock rootIno)) rootIno = din at hrinode
  refine ⟨_, finish_eq h.ready hdin0, ?_⟩
  have hdin : din.size = rootBytes files := by
    rw [← h.rootSize, ← hrinode]
    rfl
  rw [hdin]
  have hfix : fixedSize files < 2 ^ 32 := by
    have h1 : files.length + 2 ≤ 208 := hn
    have h2 : bsize = 512 := rfl
    unfold fixedSize rootBytes
    rw [h2]
    omega
  generalize hbuf : putDin (m.img.blk (iblock rootIno)) rootIno
    (din.setSize ((rootBytes files / bsize + 1) * bsize)) = buf
  generalize hm' : (m.wsect (iblock rootIno) buf).wsect bmapStart (ofBytes (bitmap m.freeblock)) = m'
  have himg : m'.img = (m.img.wsect (iblock rootIno) buf).wsect bmapStart
      (ofBytes (bitmap m.freeblock)) := by rw [← hm']; rfl
  have hfree : m'.freeblock = m.freeblock := by rw [← hm']; rfl
  -- the inodes
  have hinodes : m'.img.inodes = update m.view.mem rootIno
      { m.view.mem rootIno with size := fixedSize files } := by
    rw [himg, Image.inodes_wsect (Nat.le_refl _) (by decide), ← hbuf, Image.inodes_putDin hroot,
      inodeOf_setSize din (n := (rootBytes files / bsize + 1) * bsize) hfix, hrinode]
    rfl
  have hother : ∀ i, i ≠ rootIno → m'.img.kernel.mem i = m.view.mem i := by
    intro i hi
    show m'.img.inodes i = _
    rw [hinodes, update_of_ne hi]
  have hself : m'.img.kernel.mem rootIno = { m.view.mem rootIno with size := fixedSize files } := by
    show m'.img.inodes rootIno = _
    rw [hinodes, update_self]
  -- the blocks
  have hblk : ∀ b, nmeta ≤ b → m'.img.kernel.blk b = m.view.blk b := by
    intro b hb
    have h1 := (iblock_small hroot).1
    have h2 := bmapStart_lt
    have h3 : m.view.blk b = m.img.blk b := if_neg (Nat.not_lt.2 hb)
    rw [h3, Image.kernel, himg]
    show update (update m.img.blk (sector (iblock rootIno)) _)
      (sector bmapStart) _ b = _
    rw [(iblock_small hroot).2.2, sector_of_lt (by decide), update_of_ne (by omega),
      update_of_ne (by omega)]
  have hplace := h.formatted.owned.place
  have hown : ∀ i p, own m'.img.kernel i p = own m.view i p := by
    intro i
    refine own_congr ?_ (fun n _ => ?_) (fun h0 => hblk _ (hplace i _ h0).1)
      fun j h0 => hblk _ (hplace i _ h0).1
    · by_cases hi : i = rootIno
      · rw [hi, hself]
      · rw [hother i hi]
    · by_cases hi : i = rootIno
      · rw [hi, hself]
      · rw [hother i hi]
  have hbyte : ∀ i, fileByte m'.img.kernel i = fileByte m.view i := fun i =>
    funext fun _ => fileByte_congr (hown i _) fun h0 => hblk _ (hplace i _ h0).1
  have hbpb : fssize < bpb := by decide
  have hused : ∀ b, b < bpb → m'.img.kernel.used b = decide (b < m.freeblock) := by
    intro b hb
    rw [Image.kernel, himg]
    exact used_wsect _ m.freeblock hb
  have howned : Owned imageSb m'.img.kernel := by
    refine h.formatted.owned.shrink (fun i p _ => hown i p) (fun b hb => ?_) fun i p hne => ?_
    · have hb' : b < nmeta := hb
      have := h.ready.start
      have := nmeta_lt
      rw [hused b (by omega)]
      exact decide_eq_true (by omega)
    · rw [hown i p] at hne ⊢
      obtain ⟨-, hlt, hu⟩ := hplace i p hne
      have hlt' : own m.view i p < fssize := hlt
      rw [hused _ (by omega)]
      exact hu
  refine ⟨⟨howned, rfl⟩, by rw [hfree]; exact hused, ?_, ?_, ?_, fun k f hk => ?_⟩
  · rw [hself]
    exact h.rootKind
  · rw [hself]
  · rw [← h.rootSize]
    exact (h.formatted.files rootIno (by rw [h.rootKind]; exact nofun)).of_own (hown rootIno)
  · obtain ⟨hkind, hbytes⟩ := h.file k f hk
    have hne : k + 2 ≠ rootIno := by unfold rootIno; omega
    rw [hother _ hne]
    refine ⟨hkind, ?_, ?_⟩
    · exact (h.formatted.files (k + 2) (by rw [hkind]; exact nofun)).of_own (hown (k + 2))
    · rw [← hbytes]
      unfold contents
      rw [hbyte, hother _ hne]

end Mkfs

open Mkfs

/-- `mkfs` with files that fit, and only with such. -/
theorem mkfs_cases (hn : files.length + 2 ≤ ninodeblocks * ipb) :
    (∃ m, mkfs files = .ok m ∧ Finished files m) ∨
      ((∃ e, mkfs files = .error e) ∧ ¬ Fits files) := by
  obtain ⟨m₀, hr₀, h₀⟩ := root_made
  rw [mkfs_eq, hr₀]
  show (∃ m, files.foldlM addFile m₀ >>= finish = .ok m ∧ _) ∨
    ((∃ e, files.foldlM addFile m₀ >>= finish = .error e) ∧ _)
  rcases addFiles_cases files h₀ (by rw [List.length_nil, Nat.zero_add]; exact hn) with
    ⟨m₁, hr1, h₁⟩ | ⟨⟨e, hr1⟩, hfits⟩
  · obtain ⟨m₂, hr2, h₂⟩ := finish_spec h₁ hn
    exact Or.inl ⟨m₂, bind_of_ok hr1 hr2, h₂⟩
  · exact Or.inr ⟨⟨e, by rw [hr1]; rfl⟩, hfits⟩

-- ======== results

/-- For files that fit into the image, `mkfs` builds it. The kernel's
`readi` of a whole file gives the bytes that were read, the bitmap marks
the blocks below `freeblock`, where all blocks of files are, and in no
later state does `balloc` return a block that is part of a file. -/
theorem mkfs_and_kernel_agree (files : List InputFile) (hfits : Fits files) :
    ∃ m, mkfs files = .ok m ∧
      (∀ k f, files[k]? = some f → ∀ devsw,
        (m.img.kernel.mem (k + 2)).size = f.bytes.length ∧
        readi imageSb m.img.kernel devsw (k + 2) 0 f.bytes.length
          = .ok (f.bytes.length, f.bytes, m.img.kernel)) ∧
      (∀ b, b < bpb → (m.img.used b = true ↔ b < m.freeblock)) ∧
      (∀ i p, own m.img.kernel i p ≠ 0 → own m.img.kernel i p < m.freeblock) ∧
      ∀ devsw s, Reach (opStep imageSb devsw) (· = m.img.kernel) s →
        ∀ b t, balloc imageSb s = .ok (b, t) → ∀ i p, own s i p ≠ b := by
  rcases mkfs_cases hfits.inodes with ⟨m, hr, h⟩ | ⟨-, hno⟩
  swap
  · exact absurd hfits hno
  have hbpb : fssize < bpb := by decide
  refine ⟨m, hr, fun k f hk devsw => ?_, fun b hb => ?_, fun i p hne => ?_,
    fun devsw s hs b t hb i p => ?_⟩
  · obtain ⟨hkind, hshape, hbytes⟩ := h.file k f hk
    have hlen : (m.img.kernel.mem (k + 2)).size = f.bytes.length := by
      rw [← contents_length, hbytes]
    have hmax : f.bytes.length ≤ maxFile * bsize := by
      rw [← hlen]
      exact nblocks_le.1 hshape.le
    have hword : 0 + f.bytes.length < 2 ^ 32 := by
      rw [Nat.zero_add]
      exact Nat.lt_of_le_of_lt hmax (by decide)
    refine ⟨hlen, ?_⟩
    rw [readi_of_shaped h.consistent.1 (by rw [hkind]; exact nofun) (by rw [hkind]; exact nofun)
      hshape devsw hword, if_neg (Nat.not_lt_zero _), hbytes, List.drop_zero, List.take_length]
  · rw [show m.img.used b = _ from h.used b hb, decide_eq_true_eq]
  · obtain ⟨-, hlt, hu⟩ := h.consistent.1.place i p hne
    have hlt' : own m.img.kernel i p < fssize := hlt
    rw [h.used _ (by omega)] at hu
    exact of_decide_eq_true hu
  · have hreach : Reach (opStep imageSb devsw) (Consistent imageSb) s :=
      hs.invariant (fun _ h0 => .start (by rw [h0]; exact h.consistent))
        fun _ _ _ hr hstep => hr.next hstep
    exact ((Sound.reach hreach).owned.balloc_fresh hb).2 i p

/-- Two files, the second of them empty. -/
def twoFiles : List InputFile :=
  [⟨[97], [⟨[1, 2, 3], by decide⟩, ⟨[4], by decide⟩]⟩, ⟨[95, 98], []⟩]

theorem mkfs_and_kernel_agree_twoFiles :
    ∃ m, mkfs twoFiles = .ok m ∧ readi imageSb m.img.kernel (fun _ => none) 2 0 4
      = .ok (4, [1, 2, 3, 4], m.img.kernel) := by
  obtain ⟨m, hr, hread, -⟩ := mkfs_and_kernel_agree twoFiles
    ⟨by decide, by decide, by decide, by decide⟩
  exact ⟨m, hr, (hread 0 _ rfl fun _ => none).2⟩

-- ======== holes

/-- The address of a block of a file in an image, 0 where there is none. -/
def Image.blockAddr (img : Image) (ip : Dinode) (bn : Nat) : Nat :=
  if bn < ndirect then ip.addrs bn
  else if (bn - ndirect) / nindirect < nindirect then
    let mid := if ip.addrs ndirect = 0 then 0
      else (img.blk (ip.addrs ndirect) ((bn - ndirect) / nindirect)).toNat
    if mid = 0 then 0 else (img.blk mid ((bn - ndirect) % nindirect)).toNat
  else 0

/-- The inodes that `mkfs` has made for the root directory and `n` files
have a block for each part of their size. -/
def NoHoles (img : Image) (n : Nat) : Prop :=
  ∀ i, rootIno ≤ i → i ≤ n + 1 → ∀ bn, bn < nblocks (img.inodeAt i).size →
    img.blockAddr (img.inodeAt i) bn ≠ 0

theorem blockAddr_eq (img : Image) {i : Nat} (hi : i < ninodeblocks * ipb)
    (hl : (img.kernel.mem i).kind ≠ .free) (bn : Nat) :
    img.blockAddr (img.inodeAt i) bn = own img.kernel i (.data bn) := by
  have hmem : img.kernel.mem i = img.inodeAt i := if_pos hi
  unfold Image.blockAddr
  by_cases hd : bn < ndirect
  · rw [if_pos hd, own_direct hl hd, hmem]
  rw [if_neg hd]
  split
  · next hj =>
    have hbn : bn < maxFile := by
      have := Nat.lt_mul_of_div_lt hj (by decide)
      unfold maxFile
      omega
    rw [own_leaf hl (Nat.not_lt.1 hd) hbn]
    unfold leafOf midOf rootOf
    rw [hmem]
    rfl
  · next hj =>
    refine (own_data_ge fun hbn => hj (Nat.div_lt_of_lt_mul ?_)).symm
    unfold maxFile at hbn
    omega

/-- The rounded size has one block more than the directory when that is a
whole number of blocks. -/
theorem nblocks_fixedSize (files : List InputFile) :
    nblocks (fixedSize files) = rootBytes files / bsize + 1 ∧
      (nblocks (fixedSize files) ≤ nblocks (rootBytes files) ↔
        (files.length + 2) % (bsize / 16) ≠ 0) := by
  have hb : bsize = 512 := rfl
  unfold fixedSize rootBytes nblocks
  rw [hb]
  omega

/-- As long as the inodes fit, the root directory decides. -/
theorem Mkfs.Finished.noHoles_iff {m : Mkfs} (h : Finished files m)
    (hn : files.length + 2 ≤ ninodeblocks * ipb) :
    NoHoles m.img files.length ↔ (files.length + 2) % (bsize / 16) ≠ 0 := by
  have hlive : (m.img.kernel.mem rootIno).kind ≠ .free := by rw [h.rootKind]; exact nofun
  have haddr := blockAddr_eq m.img (by decide) hlive
  have hsize : (m.img.inodeAt rootIno).size = fixedSize files := h.rootSize
  rw [← (nblocks_fixedSize files).2]
  constructor
  · intro hno
    by_contra hlt
    have hhole := hno rootIno (Nat.le_refl _) (Nat.le_add_left _ _) (nblocks (rootBytes files))
      (by rw [hsize]; omega)
    rw [haddr] at hhole
    exact Nat.lt_irrefl _ ((h.rootShape.iff _).1 hhole)
  · intro hle i h1 hi bn hbn
    by_cases hroot : i = rootIno
    · subst hroot
      rw [hsize] at hbn
      rw [haddr]
      exact (h.rootShape.iff (.data bn)).2 (Nat.lt_of_lt_of_le hbn hle)
    · -- the file with this inode
      have h1' : 1 ≤ i := h1
      have hroot' : i ≠ 1 := hroot
      obtain ⟨k, rfl⟩ : ∃ k, i = k + 2 := ⟨i - 2, by omega⟩
      have hk : k < files.length := by omega
      obtain ⟨hkind, hshape, -⟩ := h.file k files[k] (List.getElem?_eq_getElem hk)
      have hin : k + 2 < ninodeblocks * ipb := by omega
      have hmem : m.img.kernel.mem (k + 2) = m.img.inodeAt (k + 2) := if_pos hin
      rw [← hmem] at hbn
      rw [blockAddr_eq m.img hin (by rw [hkind]; exact nofun)]
      exact (hshape.iff (.data bn)).2 hbn

namespace Mkfs

-- ======== inodes in the bitmap

section Freeblock

variable {m m' : Mkfs}

theorem winode_freeblock {inum : Nat} (h : m.winode inum din = .ok m') :
    m'.freeblock = m.freeblock := by
  obtain ⟨buf, -, h⟩ := bind_eq_ok.1 h
  cases h
  rfl

theorem iappend_freeblock {inum : Nat} {p : List Byte} (h : m.iappend inum p = .ok m') :
    m.freeblock ≤ m'.freeblock := by
  obtain ⟨din, -, h⟩ := bind_eq_ok.1 h
  obtain ⟨⟨din', off, m₁⟩, hloop, h⟩ := bind_eq_ok.1 h
  rw [winode_freeblock h]
  exact (appendLoop_ok p.length (Nat.le_refl _) hloop).1.freeblock

/-- A loop of steps that do not lower `freeblock`. -/
theorem foldlM_freeblock {α : Type} {step : Mkfs → α → Except MkfsExit Mkfs}
    (hstep : ∀ m a m', step m a = .ok m' → m.freeblock ≤ m'.freeblock) {l : List α}
    (h : l.foldlM step m = .ok m') : m.freeblock ≤ m'.freeblock := by
  induction l generalizing m with
  | nil =>
    cases h
    exact Nat.le_refl _
  | cons a l ih =>
    rw [List.foldlM_cons] at h
    obtain ⟨m₁, h₁, h⟩ := bind_eq_ok.1 h
    exact Nat.le_trans (hstep m a m₁ h₁) (ih h)

theorem addFile_freeblock {f : InputFile} (h : m.addFile f = .ok m') :
    m.freeblock ≤ m'.freeblock := by
  unfold addFile at h
  split at h
  · cases h
  · obtain ⟨⟨inum, m₁⟩, h₁, h⟩ := bind_eq_ok.1 h
    obtain ⟨m₂, h₂, h⟩ := bind_eq_ok.1 h
    obtain ⟨m₀, h₀, h₁⟩ := bind_eq_ok.1 h₁
    cases h₁
    calc m.freeblock = m₁.freeblock := (winode_freeblock h₀).symm
      _ ≤ m₂.freeblock := iappend_freeblock h₂
      _ ≤ m'.freeblock := foldlM_freeblock (fun _ _ _ => iappend_freeblock) h

/-- The bitmap is the last thing written. -/
theorem finish_bitmap (h : m.finish = .ok m') :
    m'.img.blk bmapStart = ofBytes (bitmap m.freeblock) := by
  obtain ⟨m₁, hfix, h⟩ := bind_eq_ok.1 h
  obtain ⟨din, -, hfix⟩ := bind_eq_ok.1 hfix
  unfold balloc at h
  split at h
  · cases h
  · cases h
    rw [winode_freeblock hfix]
    show update m₁.img.blk (sector bmapStart) (ofBytes (bitmap m.freeblock)) bmapStart = _
    rw [sector_of_lt (by decide), update_self]

end Freeblock

/-- With that many files the bits reach into the size of inode 208. -/
theorem many_freeblock {m m' : Mkfs} (h₀ : Made [] m)
    (hlen : 207 ≤ files.length) (h : files.foldlM addFile m = .ok m') : 66 ≤ m'.freeblock := by
  rw [← List.take_append_drop 206 files, List.foldlM_append] at h
  obtain ⟨m₁, h₁, h⟩ := bind_eq_ok.1 h
  have htake : (files.take 206).length = 206 := by
    rw [List.length_take]
    omega
  have hinodes : 0 + (files.take 206).length + 2 ≤ ninodeblocks * ipb := by
    rw [htake]
    decide
  rcases addFiles_cases (files.take 206) h₀ hinodes with ⟨m₂, h₂, hmade⟩ | ⟨⟨e, he⟩, -⟩
  · obtain rfl : m₁ = m₂ := Except.ok.inj (h₁.symm.trans h₂)
    have hblk := hmade.freeblock
    have hroot : nmeta + blocksFor (nblocks (rootBytes ([] ++ files.take 206))) = 66 := by
      unfold rootBytes
      rw [List.nil_append, htake]
      decide
    unfold spent at hblk
    have := foldlM_freeblock (fun _ _ _ => addFile_freeblock) h
    omega
  · rw [h₁] at he
    cases he

end Mkfs

theorem bitmap_word_zero {used : Nat} (h : used ≤ 32 * w) : ofBytes (bitmap used) w = 0#32 := by
  refine BitVec.eq_of_getLsbD_eq fun k hk => ?_
  rw [bitmap_word used w hk, BitVec.getLsbD_zero]
  exact decide_eq_false (by omega)

theorem bitmap_word_ones {used : Nat} (h : 32 * w + 32 ≤ used) :
    ofBytes (bitmap used) w = BitVec.allOnes 32 := by
  refine BitVec.eq_of_getLsbD_eq fun k hk => ?_
  rw [bitmap_word used w hk, BitVec.getLsbD_allOnes, decide_eq_true hk]
  exact decide_eq_true (by omega)

/-- The inode after the inode blocks is in the bitmap. -/
theorem hole_in_bitmap {img : Image} {used n : Nat} (hn : 207 ≤ n) (hused : 66 ≤ used)
    (hblk : img.blk bmapStart = ofBytes (bitmap used)) : ¬ NoHoles img n := by
  intro hno
  have hin : ∀ w, dinIn (img.blk (iblock 208)) 208 w = ofBytes (bitmap used) w := by
    intro w
    show img.blk bmapStart (dinodeWords * 0 + w) = _
    rw [hblk, Nat.mul_zero, Nat.zero_add]
  have hsize : (img.inodeAt 208).size = (ofBytes (bitmap used) 2).toNat :=
    congrArg BitVec.toNat (hin 2)
  have hhole := hno 208 (by decide) (by omega)
  by_cases hall : used ≤ 96
  · -- the size is not 0 and the first address is
    refine hhole 0 ?_ ?_
    · have hpos : 0 < (img.inodeAt 208).size := by
        refine Nat.pos_of_ne_zero fun h0 => ?_
        have hbit := bitmap_word used 2 (k := 0) (by decide)
        rw [hsize] at h0
        rw [BitVec.eq_of_toNat_eq (y := 0#32) h0, BitVec.getLsbD_zero] at hbit
        exact of_decide_eq_false hbit.symm (by omega)
      exact lt_nblocks hpos
    · show (dinIn (img.blk (iblock 208)) 208 3).toNat = 0
      rw [hin, bitmap_word_zero (by omega)]
      rfl
  · -- the size is the largest there is
    refine hhole maxFile ?_ ?_
    · rw [hsize, bitmap_word_ones (by omega)]
      decide
    · unfold Image.blockAddr
      rw [if_neg (by decide), if_neg (by decide)]

/-- An image that `mkfs` makes has no holes if and only if the inodes are
in the inode blocks and the entries of the root directory do not end with
a block. -/
theorem mkfs_noHoles_iff (files : List InputFile) (m : Mkfs) (h : mkfs files = .ok m) :
    NoHoles m.img files.length ↔
      files.length + 2 ≤ ninodeblocks * ipb ∧ (files.length + 2) % (bsize / 16) ≠ 0 := by
  by_cases hn : files.length + 2 ≤ ninodeblocks * ipb
  · rcases mkfs_cases hn with ⟨m', hr, hfin⟩ | ⟨⟨e, hr⟩, -⟩
    · obtain rfl : m = m' := Except.ok.inj (h.symm.trans hr)
      rw [hfin.noHoles_iff hn]
      exact (and_iff_right hn).symm
    · rw [h] at hr
      cases hr
  · refine iff_of_false ?_ fun hall => hn hall.1
    have hn' : ¬ files.length + 2 ≤ 208 := hn
    obtain ⟨m₀, hr₀, h₀⟩ := root_made
    rw [mkfs_eq] at h
    obtain ⟨m₁, h₁, h⟩ := bind_eq_ok.1 h
    obtain rfl : m₁ = m₀ := Except.ok.inj (h₁.symm.trans hr₀)
    obtain ⟨m₂, h₂, h⟩ := bind_eq_ok.1 h
    exact hole_in_bitmap (by omega) (many_freeblock h₀ (by omega) h₂) (finish_bitmap h)

theorem mkfs_noHoles_iff_empty : ∃ m, mkfs [] = .ok m ∧ NoHoles m.img 0 := by
  have hinodes : ([] : List InputFile).length + 2 ≤ ninodeblocks * ipb := by decide
  rcases mkfs_cases hinodes with ⟨m, hr, -⟩ | ⟨-, hno⟩
  · exact ⟨m, hr, (mkfs_noHoles_iff [] m hr).2 (by decide)⟩
  · exact absurd ⟨by decide, nofun, nofun, by decide⟩ hno

/-- With thirty files, the root directory has 32 entries of 16 bytes, in
one block, and gets the size of two. -/
theorem root_has_hole :
    ∃ m, mkfs (List.replicate 30 ⟨[97], []⟩) = .ok m ∧ (m.img.inodeAt rootIno).size = 1024 ∧
      m.img.blockAddr (m.img.inodeAt rootIno) 1 = 0 := by
  have hinodes : (List.replicate 30 (⟨[97], []⟩ : InputFile)).length + 2 ≤ ninodeblocks * ipb := by
    decide
  rcases mkfs_cases hinodes with ⟨m, hr, h⟩ | ⟨-, hno⟩
  · have hlive : (m.img.kernel.mem rootIno).kind ≠ .free := by rw [h.rootKind]; exact nofun
    have hsize : (m.img.inodeAt rootIno).size = _ := h.rootSize
    refine ⟨m, hr, hsize, ?_⟩
    rw [blockAddr_eq m.img (by decide) hlive]
    by_contra hne
    exact absurd ((h.rootShape.iff _).1 hne) (by decide)
  · exact absurd ⟨by decide, by decide, by decide, by decide⟩ hno

end Xv6Sume32.Fs
