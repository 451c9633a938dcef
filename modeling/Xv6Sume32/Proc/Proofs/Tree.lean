/-
The forest of processes over every run of the table.

# Method

Every step of the table is a step of the forest (`procStep_tree`): most
change only what the forest does not show. The invariant of the forest is
then kept field by field, each with the facts about the other fields that
it rests on.
-/
import Xv6Sume32.Proc.Tree

namespace Xv6Sume32.Proc

open Lib
open Function (update update_apply update_eq_self)

variable {q : Slot} {e : ProcEvent}

-- ======== the forest, field by field

namespace Tree

variable {t u : Tree}

-- A slot becomes free when `fork` gives it up before it has a parent, and
-- when `wait` clears it.
theorem Good.free_step (h : Good t) (hs : Step t u) :
    ∀ i, u.kind i = .free → u.parent i = none ∧ u.kstack i = none := by
  have hfree := h.free
  have hmaking := h.making
  cases hs <;> grind [update_apply, Filled]

-- Nobody but its maker touches an embryo, and the maker does nothing else:
-- it neither exits nor forks.
theorem Good.making_step (h : Good t) (hs : Step t u) : ∀ p i stage, u.making p = some (i, stage) →
      u.kind p = .live ∧ u.kind i = .embryo ∧ u.Filled p i stage := by
  have hfree := h.free
  have hmaking := h.making
  have hone := h.one
  intro q i stage
  cases hs <;> cases stage <;> grind [update_apply, Filled]

theorem Good.one_step (h : Good t) (hs : Step t u) :
    ∀ p q i stage stage', u.making p = some (i, stage) → u.making q = some (i, stage') → p = q := by
  have hmaking := h.making
  have hone := h.one
  cases hs <;> grind [update_apply]

-- A parent is the process that forks, or init; a process that exits is
-- nobody's parent any more.
theorem Good.parent_step (h : Good t) (hs : Step t u) :
    ∀ i q, u.parent i = some q → u.kind q = .live := by
  have hparent := h.parent
  have hmaking := h.making
  have hinit := h.init
  cases hs <;> grind [update_apply]

theorem Good.init_step (h : Good t) (hs : Step t u) : u.kind initproc = .live := by
  have hinit := h.init
  have hmaking := h.making
  cases hs <;> grind [update_apply]

theorem Good.grown_step (h : Good t) (hs : Step t u) :
    ∀ i, u.kind i = .live ∨ u.kind i = .zombie → (u.kstack i).isSome ∧ (u.pgdir i).isSome := by
  have hgrown := h.grown
  have hmaking := h.making
  cases hs <;> grind [update_apply, Filled]

-- ======== the pages

theorem Good.pages_step (h : Good t) (hs : Step t u) : Exclusive u.holds (u.page · = true) := by
  have hmaking := h.making
  have hfree := h.free
  cases hs with
  | stay => exact h.pages
  | denied => exact h.pages
  | alone => exact h.pages
  | alloc | noStack | publish | exit =>
    refine h.pages.mono ?_ (fun _ _ _ => id)
    rintro ⟨i, ⟨⟩ | ⟨⟩⟩ k <;> grind [update_apply, holds, hasDir]
  | @stack p np k hm hk =>
    refine h.pages.take (a := (np, .stack)) (k := k) ?_ ?_ ?_ ?_
    · simp [hk]
    · rintro ⟨i, ⟨⟩ | ⟨⟩⟩ j <;> grind [update_apply, holds, hasDir]
    · simp
    · grind [update_apply]
  | @noCopy p np k hm hk =>
    refine h.pages.drop (a := (np, .stack)) (k := k) hk ?_ ?_
    · rintro ⟨i, ⟨⟩ | ⟨⟩⟩ j <;> grind [update_apply, holds, hasDir]
    · grind [update_apply]
  | @copied p np d hm hd =>
    refine h.pages.take (a := (np, .dir)) (k := d) ?_ ?_ ?_ ?_
    · simp [hd]
    · rintro ⟨i, ⟨⟩ | ⟨⟩⟩ j <;> grind [update_apply, holds, hasDir]
    · simp
    · grind [update_apply]
  | @reap p i k d hi hp hk hd =>
    -- first the kernel stack, then the page table
    have hstack : Exclusive (fun a j => t.holds a j ∧ a ≠ (i, .stack))
        (update t.page k false · = true) := by
      refine h.pages.drop (a := (i, .stack)) (k := k) hk (fun _ _ hb => hb) ?_
      grind [update_apply]
    refine hstack.drop (a := (i, .dir)) (k := d) ⟨⟨hd, Or.inr (Or.inl hi)⟩, by simp⟩ ?_ ?_
    · rintro ⟨b, ⟨⟩ | ⟨⟩⟩ j <;> grind [update_apply, holds, hasDir]
    · grind [update_apply]

-- ======== the pids

theorem Numbered.fresh (h : Numbered t) (hf : t.forks < 2 ^ 31) :
    (t.nextpid + 1).toNat = t.nextpid.toNat + 1 := by
  have := h.next
  have := t.nextpid.isLt
  have hone : (1 : Word).toNat = 1 := rfl
  rw [BitVec.toNat_add, hone]
  omega

theorem reaped_found {p : Slot} {x : Word} (hw : u.waits = t.waits ++ [(p, some x)]) :
    u.reaped = t.reaped ++ [x] := by
  simp [reaped, hw]

theorem Good.pids_step (h : Good t) (hs : Step t u) (hf : u.forks < 2 ^ 31) : u.Numbered := by
  have hmaking := h.making
  cases hs with
  | stay => exact h.pids hf
  | denied =>
    obtain ⟨hnext, hbelow, hdistinct, hgone, honce⟩ := h.pids (by grind)
    exact ⟨by grind, hbelow, hdistinct, hgone, honce⟩
  | alone =>
    obtain ⟨hnext, hbelow, hdistinct, hgone, honce⟩ := h.pids hf
    refine ⟨hnext, hbelow, hdistinct, ?_, ?_⟩
    · simpa [reaped] using hgone
    · simpa [reaped] using honce
  | @alloc p np hp hm hfree =>
    have hn := h.pids (by grind)
    have hfresh := hn.fresh (by grind)
    obtain ⟨hnext, hbelow, hdistinct, hgone, honce⟩ := hn
    refine ⟨by grind, ?_, ?_, ?_, honce⟩
    · grind [update_apply]
    · grind [update_apply]
    · intro x hx
      have := hgone x hx
      grind [update_apply]
  | noStack | stack | noCopy | copied | publish | exit =>
    obtain ⟨hnext, hbelow, hdistinct, hgone, honce⟩ := h.pids hf
    refine ⟨hnext, ?_, ?_, ?_, honce⟩
    · grind [update_apply]
    · grind [update_apply]
    · intro x hx
      have := hgone x hx
      grind [update_apply]
  | @reap p i k d hi hp hk hd =>
    obtain ⟨hnext, hbelow, hdistinct, hgone, honce⟩ := h.pids hf
    refine ⟨hnext, ?_, ?_, ?_, ?_⟩
    · grind [update_apply]
    · grind [update_apply]
    · rw [reaped_found rfl]
      intro x hx
      rcases List.mem_append.1 hx with hx | hx
      · have := hgone x hx
        grind [update_apply]
      · rw [List.mem_singleton] at hx
        subst hx
        grind [update_apply]
    · rw [reaped_found rfl]
      grind

theorem Good.step (h : Good t) (hs : Step t u) : Good u where
  free := h.free_step hs
  making := h.making_step hs
  one := h.one_step hs
  parent := h.parent_step hs
  init := h.init_step hs
  grown := h.grown_step hs
  pages := h.pages_step hs
  pids := h.pids_step hs

-- ======== what is left

/-- A process that has exited stays as it is, with its pages, until its
parent gets its pid. -/
theorem Good.zombie_step (h : Good t) (hs : Step t u) {i : Slot} (hi : t.kind i = .zombie) :
    (u.kind i = .zombie ∧ u.pid i = t.pid i ∧ u.kstack i = t.kstack i ∧ u.pgdir i = t.pgdir i ∧
      ∀ role k, t.holds (i, role) k → u.page k = true) ∨
    ∃ p k d, t.parent i = some p ∧ t.kstack i = some k ∧ t.pgdir i = some d ∧
      u = t.cleared p i k d := by
  have hmaking := h.making
  -- a page that somebody else gives back is not one of `i`
  have hother : ∀ {a role k j}, t.holds a k → a ≠ (i, role) → t.holds (i, role) j → j ≠ k := by
    rintro a role k j ha hne hj rfl
    exact hne (h.pages.one ha hj)
  have hused : ∀ role k, t.holds (i, role) k → t.page k = true := fun _ _ hk => h.pages.used hk
  cases hs with
  | stay | denied | alone => exact Or.inl ⟨hi, rfl, rfl, rfl, hused⟩
  | alloc | noStack | stack | copied | publish | exit =>
    left
    refine ⟨?_, ?_, ?_, ?_, fun role k hk => ?_⟩
    all_goals grind [update_apply]
  | @noCopy p np k hm hk =>
    left
    have hnp : np ≠ i := by grind
    have hne : ∀ role, ((np, .stack) : Slot × Role) ≠ (i, role) := by simp [hnp]
    have := fun role j hj => hother (a := (np, .stack)) hk (hne role) (j := j) hj
    refine ⟨?_, ?_, ?_, ?_, fun role k hk => ?_⟩
    all_goals grind [update_apply]
  | @reap p j k d hj hp hk hd =>
    by_cases hji : j = i
    · subst hji
      exact Or.inr ⟨p, k, d, hp, hk, hd, rfl⟩
    · left
      have hne : ∀ role role', ((j, role') : Slot × Role) ≠ (i, role) := by simp [hji]
      have := fun role l hl => hother (a := (j, .stack)) hk (hne role _) (j := l) hl
      have := fun role l hl => hother (a := (j, .dir)) ⟨hd, Or.inr (Or.inl hj)⟩ (hne role _)
        (j := l) hl
      refine ⟨?_, ?_, ?_, ?_, fun role k hk => ?_⟩
      all_goals grind [update_apply]

end Tree

-- ======== the table is a forest

namespace Ptable

variable {s t : Ptable} {p np i : Slot}

theorem tree_set (s : Ptable) (i : Slot) (q : ProcSlot) : (s.set i q).tree = { s.tree with
    kind := update s.tree.kind i q.state.kind
    pid := update s.tree.pid i q.pid
    parent := update s.tree.parent i q.parent
    kstack := update s.tree.kstack i q.kstack
    pgdir := update s.tree.pgdir i q.pgdir } := by
  apply Tree.ext <;> try rfl
  all_goals
    funext j
    by_cases hj : j = i <;> simp [tree, set, hj]

/-- Changes that do not show. -/
theorem tree_set_same {q : ProcSlot} (hkind : q.state.kind = (s.proc i).state.kind)
    (hpid : q.pid = (s.proc i).pid) (hparent : q.parent = (s.proc i).parent)
    (hkstack : q.kstack = (s.proc i).kstack) (hpgdir : q.pgdir = (s.proc i).pgdir) :
    (s.set i q).tree = s.tree := by
  rw [tree_set, hkind, hpid, hparent, hkstack, hpgdir]
  ext j <;> simp [tree]

theorem tree_state (s : Ptable) (i : Slot) (st : ProcState) :
    (s.set i { s.proc i with state := st }).tree
      = { s.tree with kind := update s.tree.kind i st.kind } := by
  rw [tree_set]
  apply Tree.ext <;> try rfl
  all_goals exact update_eq_self i _

theorem tree_pc (s : Ptable) (p : Slot) (pc : Pc) : tree { s with pc := update s.pc p pc }
      = { s.tree with making := update s.tree.making p pc.making } := by
  apply Tree.ext <;> try rfl
  funext j
  by_cases hj : j = p <;> simp [tree, hj]

theorem tree_ret (s : Ptable) (p : Slot) (v : Word) :
    (s.ret p v).tree = { s.tree with making := update s.tree.making p none } := by
  have hset : (s.set p { s.proc p with eax := v }).tree = s.tree :=
    tree_set_same rfl rfl rfl rfl rfl
  have h := tree_pc (s.set p { s.proc p with eax := v }) p .user
  rw [hset] at h
  exact h

/-- The result of a system call other than `fork`. -/
theorem tree_ret_user (hp : s.tree.making p = none) (v : Word) : (s.ret p v).tree = s.tree := by
  rw [tree_ret, ← hp, update_eq_self]

theorem tree_wakeup1 (s : Ptable) (c : Option Channel) : (s.wakeup1 c).tree = s.tree := by
  ext j <;> simp only [tree, wakeup1] <;> split
  all_goals first | rfl | (next h => simp [h.1, ProcState.kind])

theorem tree_kill (s : Ptable) (pid : Word) : (s.kill pid).1.tree = s.tree := by
  unfold kill
  split
  · rfl
  · refine tree_set_same ?_ rfl rfl rfl rfl
    dsimp only
    split
    · next h => rw [h]; rfl
    · rfl

-- The loop of `exit` changes parents, and wakes init.
theorem tree_abandon (s : Ptable) (p i : Slot) : (abandon p s i).tree = { s.tree with
    parent := fun j =>
      if j = i ∧ s.tree.parent j = some p then some initproc else s.tree.parent j } := by
  have hset : (s.set i { s.proc i with parent := some initproc }).tree
      = { s.tree with parent := update s.tree.parent i (some initproc) } := by
    rw [tree_set]
    apply Tree.ext <;> try rfl
    all_goals exact update_eq_self i _
  unfold abandon
  by_cases hp : (s.proc i).parent = some p
  · have hparent : (fun j => if j = i ∧ s.tree.parent j = some p then some initproc
        else s.tree.parent j) = update s.tree.parent i (some initproc) := by
      funext j
      by_cases hj : j = i
      · subst hj
        simp [tree, hp]
      · simp [hj]
    rw [if_pos hp, hparent, ← hset]
    dsimp only
    split
    · exact tree_wakeup1 _ _
    · rfl
  · rw [if_neg hp]
    apply Tree.ext <;> try rfl
    funext j
    by_cases hj : j = i
    · subst hj
      simp [tree, hp]
    · simp [hj]

theorem tree_abandon_all (s : Ptable) (p : Slot) (is : List Slot) :
    (is.foldl (abandon p) s).tree = { s.tree with
      parent := fun j =>
        if j ∈ is ∧ s.tree.parent j = some p then some initproc else s.tree.parent j } := by
  induction is generalizing s with
  | nil => apply Tree.ext <;> rfl
  | cons i is ih =>
    rw [List.foldl_cons, ih, tree_abandon]
    grind

theorem tree_exit (s : Ptable) (p : Slot) : (s.exit p).tree = { s.tree with
    kind := update s.tree.kind p .zombie
    parent := fun i =>
      if s.tree.parent i = some p then some initproc else s.tree.parent i } := by
  have h := tree_state ((List.finRange nproc).foldl (abandon p)
    (s.wakeup1 ((s.proc p).parent.map .proc))) p .zombie
  rw [tree_abandon_all, tree_wakeup1] at h
  simp only [List.mem_finRange, true_and] at h
  exact h

-- ======== steps of the forest

theorem free.making (h : s.free p) : s.tree.making p = none := by
  simp [tree, h.2, Pc.making]

theorem free.live (h : s.free p) : s.tree.kind p = .live := by
  simp [tree, h.1, ProcState.kind]

theorem forkAlloc_step (h : s.free p) : Tree.Step s.tree (s.forkAlloc p).tree := by
  unfold forkAlloc
  dsimp only
  split
  · rw [tree_ret_user]
    · exact .denied _
    · exact h.making
  · next np hnp =>
    have hfree : s.tree.kind np = .free := by
      have := List.find?_some hnp
      simp only [decide_eq_true_eq] at this
      simp [tree, this, ProcState.kind]
    convert Tree.Step.alloc h.live h.making hfree using 1
    apply Tree.ext <;> try rfl
    all_goals
      funext j
      simp only [tree, set, update_apply]
      split_ifs <;> simp_all [ProcState.kind, Pc.making]

theorem forkStack_step {k : Option Page} (hpc : s.pc p = .fork np .kalloc)
    (h : s.forkStack p np k = some t) : Tree.Step s.tree t.tree := by
  have hm : s.tree.making p = some (np, .kalloc) := by simp [tree, hpc, Pc.making]
  unfold forkStack at h
  split at h
  · cases h
    rw [tree_ret]
    convert Tree.Step.noStack hm using 1
    apply Tree.ext <;> try rfl
    all_goals
      funext j
      simp only [tree, set, update_apply]
      split_ifs <;> simp_all [ProcState.kind]
  · split at h
    · cases h
    · next hk =>
      cases h
      convert Tree.Step.stack hm (Bool.eq_false_iff.2 hk) using 1
      apply Tree.ext <;> try rfl
      all_goals
        funext j
        simp only [tree, set, update_apply]
        split_ifs <;> simp_all [ProcState.kind, Pc.making]

theorem forkCopy_step {d : Option Page} (hg : s.tree.Good) (hpc : s.pc p = .fork np .copy)
    (h : s.forkCopy p np d = some t) : Tree.Step s.tree t.tree := by
  have hm : s.tree.making p = some (np, .copy) := by simp [tree, hpc, Pc.making]
  unfold forkCopy at h
  split at h
  · obtain ⟨k, hk⟩ := Option.isSome_iff_exists.1 (hg.making _ _ _ hm).2.2.2
    have hk' : (s.proc np).kstack = some k := hk
    cases h
    rw [tree_ret]
    convert Tree.Step.noCopy hm hk using 1
    simp only [kfree, hk']
    apply Tree.ext <;> try rfl
    all_goals
      funext j
      simp only [tree, set, update_apply]
      split_ifs <;> simp_all [ProcState.kind]
  · split at h
    · cases h
    · next hd =>
      cases h
      convert Tree.Step.copied hm (Bool.eq_false_iff.2 hd) using 1
      apply Tree.ext <;> try rfl
      all_goals
        funext j
        simp only [tree, set, update_apply]
        split_ifs <;> simp_all [Pc.making]

theorem forkPublish_step (hpc : s.pc p = .fork np .publish) :
    Tree.Step s.tree (s.forkPublish p np).tree := by
  have hm : s.tree.making p = some (np, .publish) := by simp [tree, hpc, Pc.making]
  have h := Tree.Step.publish hm
  unfold forkPublish
  rw [tree_ret, tree_state]
  exact h

/-- What the loop of `wait` finds. -/
theorem scan_cases (s : Ptable) (p : Slot) (is : List Slot) (havekids : Bool) :
    (∃ i, s.scan p is havekids = .found i ∧ (s.proc i).parent = some p ∧
      (s.proc i).state = .zombie) ∨ ∃ b, s.scan p is havekids = .finished b ∧
      (b = false → havekids = false ∧ ∀ i ∈ is, (s.proc i).parent ≠ some p) := by
  induction is generalizing havekids with
  | nil => exact Or.inr ⟨havekids, rfl, by simp⟩
  | cons i is ih =>
    unfold scan
    by_cases hp : (s.proc i).parent = some p
    · rw [if_neg (not_not.2 hp)]
      by_cases hz : (s.proc i).state = .zombie
      · rw [if_pos hz]
        exact Or.inl ⟨i, rfl, hp, hz⟩
      · rw [if_neg hz]
        rcases ih true with h | ⟨b, hb, hkids⟩
        · exact Or.inl h
        · exact Or.inr ⟨b, hb, fun hf => absurd (hkids hf).1 (by simp)⟩
    · rw [if_pos hp]
      rcases ih havekids with h | ⟨b, hb, hkids⟩
      · exact Or.inl h
      · refine Or.inr ⟨b, hb, fun hf => ⟨(hkids hf).1, fun j hj => ?_⟩⟩
        rcases List.mem_cons.1 hj with rfl | hj
        · exact hp
        · exact (hkids hf).2 j hj

/-- How `wait` ends: with a child that has exited, with -1, or asleep. -/
theorem wait_cases (s : Ptable) (p : Slot) :
    (∃ i, (s.proc i).parent = some p ∧ (s.proc i).state = .zombie ∧
      s.wait p = { (s.reap i).ret p (s.proc i).pid with
        waits := s.waits ++ [(p, some (s.proc i).pid)] }) ∨
    (((s.proc p).killed = true ∨ ∀ i, (s.proc i).parent ≠ some p) ∧
      s.wait p = { s.ret p (-1) with waits := s.waits ++ [(p, none)] }) ∨
    s.wait p = { s.set p { s.proc p with chan := some (.proc p), state := .sleeping } with
      pc := update s.pc p .wait } := by
  rcases scan_cases s p (List.finRange nproc) false with ⟨i, hscan, hp, hz⟩ | ⟨b, hscan, hkids⟩
  · exact Or.inl ⟨i, hp, hz, by simp only [wait, hscan]⟩
  · right
    by_cases hb : (!b || (s.proc p).killed) = true
    · refine Or.inl ⟨?_, by simp only [wait, hscan, if_pos hb]⟩
      rcases Bool.or_eq_true_iff.1 hb with hb | hk
      · exact Or.inr fun i => (hkids (by simpa using hb)).2 i (List.mem_finRange i)
      · exact Or.inl hk
    · exact Or.inr (by simp only [wait, hscan, if_neg hb])

theorem wait_step (hg : s.tree.Good) (hlive : s.tree.kind p = .live)
    (hm : s.tree.making p = none) : Tree.Step s.tree (s.wait p).tree := by
  rcases wait_cases s p with ⟨i, hp, hz, hw⟩ | ⟨_, hw⟩ | hw
  · have hi : s.tree.kind i = .zombie := by simp [tree, hz, ProcState.kind]
    obtain ⟨hks, hds⟩ := hg.grown i (Or.inr hi)
    obtain ⟨k, hk⟩ := Option.isSome_iff_exists.1 hks
    obtain ⟨d, hd⟩ := Option.isSome_iff_exists.1 hds
    have hk' : (s.proc i).kstack = some k := hk
    have hd' : (s.proc i).pgdir = some d := hd
    have hreap : (s.reap i).tree.making p = none := by
      simpa [reap, kfree, hk', hd', set, tree] using hm
    have hret := tree_ret_user hreap (s.proc i).pid
    rw [hw]
    convert Tree.Step.reap hi hp hk hd using 1
    have htree : tree { (s.reap i).ret p (s.proc i).pid with
          waits := s.waits ++ [(p, some (s.proc i).pid)] }
        = { (s.reap i).tree with waits := s.waits ++ [(p, some (s.proc i).pid)] } := by
      rw [← hret]
      rfl
    rw [htree]
    simp only [reap, kfree, hk', hd']
    apply Tree.ext <;> try rfl
    all_goals
      funext j
      simp only [tree, set, update_apply]
      split_ifs <;> simp_all [ProcState.kind]
  · have hret := tree_ret_user hm (-1)
    have htree : (s.wait p).tree = { s.tree with waits := s.waits ++ [(p, none)] } := by
      rw [hw, ← hret]
      rfl
    rw [htree]
    exact .alone _ p
  · have hset : (s.set p { s.proc p with chan := some (.proc p), state := .sleeping }).tree
        = s.tree := tree_set_same hlive.symm rfl rfl rfl rfl
    have hpc := tree_pc
      (s.set p { s.proc p with chan := some (.proc p), state := .sleeping }) p .wait
    rw [hset] at hpc
    have htree : (s.wait p).tree = s.tree := by
      rw [hw]
      refine hpc.trans ?_
      rw [show Pc.wait.making = s.tree.making p from hm.symm, update_eq_self]
    rw [htree]
    exact .stay _

theorem stay_of (h : t.tree = s.tree) : Tree.Step s.tree t.tree := h ▸ .stay _

/-- A step of the table is a step of the forest. -/
theorem procStep_tree (hg : s.tree.Good) (h : procStep e s = some t) :
    Tree.Step s.tree t.tree := by
  cases e with
  | fork p =>
    simp only [procStep, Option.ite_some_none_eq_some] at h
    obtain ⟨hp, rfl⟩ := h
    exact forkAlloc_step hp
  | fill p page =>
    simp only [procStep, Option.ite_none_right_eq_some] at h
    obtain ⟨-, h⟩ := h
    split at h
    · next hpc => exact forkStack_step hpc h
    · next hpc => exact forkCopy_step hg hpc h
    · next hpc =>
      cases h
      exact forkPublish_step hpc
    · cases h
  | exit p =>
    simp only [procStep, Option.ite_some_none_eq_some] at h
    obtain ⟨⟨hp, hi⟩, rfl⟩ := h
    rw [tree_exit]
    exact .exit hp.live hp.making hi
  | wait p =>
    simp only [procStep, Option.ite_some_none_eq_some] at h
    obtain ⟨hp, rfl⟩ := h
    exact wait_step hg hp.live hp.making
  | kill p pid =>
    simp only [procStep, Option.ite_some_none_eq_some] at h
    obtain ⟨hp, rfl⟩ := h
    have htree := tree_kill s pid
    have hm : (s.kill pid).1.tree.making p = none := by
      rw [htree]
      exact hp.making
    exact stay_of ((tree_ret_user hm _).trans htree)
  | fault p =>
    simp only [procStep, Option.ite_some_none_eq_some] at h
    obtain ⟨-, rfl⟩ := h
    exact stay_of (tree_set_same rfl rfl rfl rfl rfl)
  | run p =>
    simp only [procStep, Option.ite_some_none_eq_some] at h
    obtain ⟨hp, rfl⟩ := h
    have hset : (s.set p { s.proc p with state := .running, chan := none }).tree = s.tree :=
      tree_set_same (by rw [hp]; rfl) rfl rfl rfl rfl
    unfold run
    dsimp only
    split
    · next hpc =>
      rw [← hset]
      refine wait_step (hset ▸ hg) ?_ ?_
      · rw [hset]
        simp [tree, hp, ProcState.kind]
      · simp [tree, hpc, Pc.making]
    · exact stay_of hset
  | yield p =>
    simp only [procStep, Option.ite_some_none_eq_some] at h
    obtain ⟨hp, rfl⟩ := h
    exact stay_of (tree_set_same (by rw [hp]; rfl) rfl rfl rfl rfl)
  | sleep p n =>
    simp only [procStep, Option.ite_some_none_eq_some] at h
    obtain ⟨hp, rfl⟩ := h
    exact stay_of (tree_set_same (by rw [hp.1]; rfl) rfl rfl rfl rfl)
  | wakeup n =>
    cases h
    exact stay_of (tree_wakeup1 s _)

/-- The forest with init alone. -/
theorem tree_booted_eq (h : Booted s) : ∃ k d, k ≠ d ∧ s.page k = true ∧ s.page d = true ∧
    s.tree = {
      kind := update (fun _ => .free) initproc .live
      pid := update (fun _ => 0) initproc 1
      parent := fun _ => none
      kstack := update (fun _ => none) initproc (some k)
      pgdir := update (fun _ => none) initproc (some d)
      making := fun _ => none
      nextpid := 2
      page := s.page
      forks := 0
      waits := [] } := by
  obtain ⟨k, d, page, hne, hk, hd, rfl⟩ := h
  refine ⟨k, d, hne, hk, hd, ?_⟩
  apply Tree.ext <;> try rfl
  all_goals
    funext j
    by_cases hj : j = initproc <;> simp [tree, ProcSlot.zero, ProcState.kind, hj]

theorem tree_booted (h : Booted s) : s.tree.Good := by
  obtain ⟨k, d, hne, hk, hd, ht⟩ := tree_booted_eq h
  rw [ht]
  constructor
  case pages =>
    constructor
    · rintro ⟨i, ⟨⟩ | ⟨⟩⟩ ⟨j, ⟨⟩ | ⟨⟩⟩ l <;>
        grind [Tree.holds, update_apply]
    · rintro ⟨i, ⟨⟩ | ⟨⟩⟩ l <;> grind [Tree.holds, update_apply]
  case pids =>
    intro _
    constructor
    case next => exact Nat.le_refl 2
    case once => simp [Tree.reaped]
    all_goals grind [update_apply, Tree.reaped]
  all_goals grind [update_apply]

theorem tree_good (h : Reach procStep Booted s) : s.tree.Good :=
  h.invariant (fun _ => tree_booted) fun _ _ _ hg hs => hg.step (procStep_tree hg hs)

-- ======== the results

theorem kind_free_iff (s : Ptable) (i : Slot) : s.tree.kind i ≠ .free ↔ s.inUse i :=
  not_congr ProcState.kind_free

/-- `wait` returns -1 to a caller that is killed or has no children. -/
theorem wait_alone {p : Slot} (hw : (s.wait q).waits = s.waits ++ [(p, none)]) :
    (s.proc p).killed = true ∨ ∀ i, (s.proc i).parent ≠ some p := by
  rcases wait_cases s q with ⟨i, _, _, h⟩ | ⟨hkids, h⟩ | h
  · simp [h] at hw
  · simp only [h, List.append_cancel_left_eq, List.cons.injEq, Prod.mk.injEq, and_true] at hw
    rw [← hw]
    exact hkids
  · simp [h, set] at hw

theorem run_alone {p : Slot} (hw : (s.run q).waits = s.waits ++ [(p, none)]) :
    (s.proc p).killed = true ∨ ∀ i, (s.proc i).parent ≠ some p := by
  unfold run at hw
  dsimp only at hw
  split at hw
  · have h := wait_alone hw
    have hkilled : ((s.set q { s.proc q with state := .running, chan := none }).proc p).killed
        = (s.proc p).killed := by
      by_cases hp : p = q <;> simp [set, hp]
    have hparent : ∀ i, ((s.set q { s.proc q with
        state := .running, chan := none }).proc i).parent = (s.proc i).parent := by
      intro i
      by_cases hi : i = q <;> simp [set, hi]
    simp only [hkilled, hparent] at h
    exact h
  · simp [set] at hw

theorem waits_eq (s : Ptable) : s.waits = s.tree.waits := rfl

theorem kfree_waits (s : Ptable) (k : Option Page) : (s.kfree k).waits = s.waits := by
  cases k <;> rfl

/-- Only `wait` returns what `wait` returns. -/
theorem procStep_waits (h : procStep e s = some t) :
    t.waits = s.waits ∨ ∃ q, t = s.wait q ∨ t = s.run q := by
  cases e with
  | fork p =>
    simp only [procStep, Option.ite_some_none_eq_some] at h
    obtain ⟨-, rfl⟩ := h
    left
    unfold forkAlloc
    dsimp only
    split <;> rfl
  | fill p page =>
    simp only [procStep, Option.ite_none_right_eq_some] at h
    obtain ⟨-, h⟩ := h
    left
    split at h
    · unfold forkStack at h
      split at h <;> grind [set, ret]
    · unfold forkCopy at h
      split at h <;> grind [set, ret, kfree_waits]
    · cases h
      rfl
    · cases h
  | exit p =>
    simp only [procStep, Option.ite_some_none_eq_some] at h
    obtain ⟨-, rfl⟩ := h
    left
    rw [waits_eq, tree_exit]
    rfl
  | wait p =>
    simp only [procStep, Option.ite_some_none_eq_some] at h
    exact Or.inr ⟨p, Or.inl h.2.symm⟩
  | kill p pid =>
    simp only [procStep, Option.ite_some_none_eq_some] at h
    obtain ⟨-, rfl⟩ := h
    left
    exact (waits_eq _).trans (congrArg Tree.waits (tree_kill s pid))
  | run p =>
    simp only [procStep, Option.ite_some_none_eq_some] at h
    exact Or.inr ⟨p, Or.inr h.2.symm⟩
  | fault p | yield p | sleep p =>
    simp only [procStep, Option.ite_some_none_eq_some] at h
    obtain ⟨-, rfl⟩ := h
    exact Or.inl rfl
  | wakeup n =>
    cases h
    exact Or.inl rfl

theorem waits_alone {p : Slot} (h : procStep e s = some t)
    (hw : t.waits = s.waits ++ [(p, none)]) :
    (s.proc p).killed = true ∨ ∀ i, (s.proc i).parent ≠ some p := by
  rcases procStep_waits h with h | ⟨q, rfl | rfl⟩
  · simp [h] at hw
  · exact wait_alone hw
  · exact run_alone hw

/-- A process that has exited, before and after a step of others. -/
structure Unreaped (s t : Ptable) (i : Slot) : Prop where
  state : (t.proc i).state = .zombie
  pid : (t.proc i).pid = (s.proc i).pid
  kstack : ∃ k, (s.proc i).kstack = some k ∧ (t.proc i).kstack = some k ∧ t.page k = true
  pgdir : ∃ d, (s.proc i).pgdir = some d ∧ (t.proc i).pgdir = some d ∧ t.page d = true

/-- A process that has exited, before and after its parent's `wait`. -/
structure Reaped (s t : Ptable) (p i : Slot) : Prop where
  zombie : (s.proc i).state = .zombie
  parent : (s.proc i).parent = some p
  waits : t.waits = s.waits ++ [(p, some (s.proc i).pid)]
  state : (t.proc i).state = .unused
  kstack : ∃ k, (s.proc i).kstack = some k ∧ t.page k = false
  pgdir : ∃ d, (s.proc i).pgdir = some d ∧ t.page d = false

theorem reaped_of_tree {p : Slot} {k d : Page} (hi : (s.proc i).state = .zombie)
    (hp : s.tree.parent i = some p) (hk : s.tree.kstack i = some k)
    (hd : s.tree.pgdir i = some d) (ht : t.tree = s.tree.cleared p i k d) : Reaped s t p i where
  zombie := hi
  parent := hp
  waits := congrArg Tree.waits ht
  state := by
    have hkind : t.tree.kind i = .free := by simp [ht]
    exact ProcState.kind_free.1 hkind
  kstack := by
    have hpage : t.page = _ := congrArg Tree.page ht
    exact ⟨k, hk, by rw [hpage]; grind [update_apply]⟩
  pgdir := by
    have hpage : t.page = _ := congrArg Tree.page ht
    exact ⟨d, hd, by rw [hpage]; simp⟩

/-- What becomes of a process that has exited. -/
theorem zombie_step (hg : s.tree.Good) (h : procStep e s = some t)
    (hi : (s.proc i).state = .zombie) : Unreaped s t i ∨ ∃ p, Reaped s t p i := by
  have hkind : s.tree.kind i = .zombie := ProcState.kind_zombie.2 hi
  rcases hg.zombie_step (procStep_tree hg h) hkind with ⟨hz, hpid, hks, hds, hpages⟩
    | ⟨p, k, d, hp, hk, hd, ht⟩
  · left
    obtain ⟨hk, hd⟩ := hg.grown i (Or.inr hkind)
    obtain ⟨k, hk⟩ := Option.isSome_iff_exists.1 hk
    obtain ⟨d, hd⟩ := Option.isSome_iff_exists.1 hd
    exact {
      state := ProcState.kind_zombie.1 hz
      pid := hpid
      kstack := ⟨k, hk, hks.trans hk, hpages .stack k hk⟩
      pgdir := ⟨d, hd, hds.trans hd, hpages .dir d ⟨hd, Or.inr (Or.inl hkind)⟩⟩ }
  · exact Or.inr ⟨p, reaped_of_tree hi hp hk hd ht⟩

/-- What a step lets `wait` return. -/
theorem waits_step (hg : s.tree.Good) (h : procStep e s = some t) :
    t.waits = s.waits ∨ (∃ p i, Reaped s t p i) ∨ ∃ p, t.waits = s.waits ++ [(p, none)] ∧
        ((s.proc p).killed = true ∨ ∀ i, s.inUse i → (s.proc i).parent ≠ some p) := by
  have hs := procStep_tree hg h
  generalize ht : t.tree = u at hs
  have hwaits : t.waits = u.waits := congrArg Tree.waits ht
  cases hs with
  | reap hi hp hk hd =>
    exact Or.inr (Or.inl ⟨_, _, reaped_of_tree (ProcState.kind_zombie.1 hi) hp hk hd ht⟩)
  | alone p =>
    refine Or.inr (Or.inr ⟨p, hwaits, ?_⟩)
    exact (waits_alone h hwaits).imp_right fun hk i _ => hk i
  | _ => exact Or.inl hwaits

end Ptable

open Ptable

/-- In every interleaving of `fork`, `exit` and `wait` with fewer than
2^31 forks: processes have different pids; parents are live; no pid is
returned by two calls of `wait`. A process that has exited keeps its slot,
stack and page table until its parent's `wait` returns its pid; and what
`wait` returns is such a pid, or -1 to a caller that is killed or has no
children. -/
theorem process_tree (s : Ptable) (hr : Reach procStep Booted s) (hf : s.forks < 2 ^ 31) :
    (∀ i j, s.inUse i → s.inUse j → (s.proc i).pid = (s.proc j).pid → i = j) ∧
    (∀ i q, s.inUse i → i ≠ initproc → (s.proc i).parent = some q →
      s.inUse q ∧ (s.proc q).state ≠ .zombie) ∧
    (s.waits.filterMap (·.2)).Nodup ∧
    ∀ e t, procStep e s = some t →
      (∀ i, (s.proc i).state = .zombie → Unreaped s t i ∨ ∃ p, Reaped s t p i) ∧
      (t.waits = s.waits ∨ (∃ p i, Reaped s t p i) ∨
        ∃ p, t.waits = s.waits ++ [(p, none)] ∧
          ((s.proc p).killed = true ∨ ∀ i, s.inUse i → (s.proc i).parent ≠ some p)) := by
  have hg := tree_good hr
  have hn := hg.pids hf
  refine ⟨fun i j hi hj => ?_, fun i q _ _ hq => ?_, hn.once, fun e t h => ⟨fun i hi => ?_, ?_⟩⟩
  · exact hn.distinct i j ((kind_free_iff s i).2 hi) ((kind_free_iff s j).2 hj)
  · have hlive := hg.parent i q hq
    constructor
    · exact (kind_free_iff s q).1 (by simp [hlive])
    · intro hz
      have := ProcState.kind_zombie.2 hz
      simp [tree, this] at hlive
  · exact zombie_step hg h hi
  · exact waits_step hg h

/-- The table after boot, with the pages 0 and 1. -/
def bootTable : Ptable where
  proc := update (fun _ => ProcSlot.zero) initproc
    { ProcSlot.zero with state := .runnable, pid := 1, kstack := some 0, pgdir := some 1 }
  nextpid := 2
  pc := fun _ => .user
  page := fun k => decide (k < 2)
  forks := 0
  waits := []
  blamed := fun _ => false

theorem bootTable_booted : Booted bootTable :=
  ⟨0, 1, fun k => decide (k < 2), by decide, rfl, rfl, rfl⟩

/-- init forks a child, which exits and is waited for. -/
theorem process_tree_child : ∃ s : Ptable, Reach procStep Booted s ∧ s.forks = 1 ∧
    s.waits = [(0, some 2)] ∧ (s.waits.filterMap (·.2)).Nodup := by
  obtain ⟨s, hr, hs⟩ := Reach.eval procStep
    [.run 0, .fork 0, .fill 0 (some 2), .fill 0 (some 3), .fill 0 none, .wait 0, .run 1, .exit 1,
      .run 0] (fun s => (s.forks, s.waits)) (1, [(0, some 2)]) bootTable_booted (by decide +kernel)
  obtain ⟨hf, hw⟩ := Prod.mk.inj hs
  exact ⟨s, hr, hf, hw, (process_tree s hr (by rw [hf]; decide)).2.2.1⟩

end Xv6Sume32.Proc
