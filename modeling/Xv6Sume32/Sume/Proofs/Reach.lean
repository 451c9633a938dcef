/-
Which instructions the paths of a program reach, and whether one of them
falls out of its function.

The compiler emits nothing for the `end` that closes a function, so a path
that gets there runs on into whatever the output has next. `NoFallThrough`
says that this does not happen: there is a function, every function is
closed, and no path reaches the closing `end`.

# A scan of the text

Reachability in structured code needs no graph search. `reached` goes
over the text once: the instruction behind a `ret`, a `trap` or a `br` is
not reached by falling, the one behind the `end` of a block is reached
when that `end` is, or when a reached branch names the block. For accepted
programs the scan and the paths agree (`mem_reached_of_path`,
`path_of_mem_reached`), which turns the property into one that can be
evaluated, `Guarded`.
-/
import Xv6Sume32.Sume.Proofs.Paths

namespace Xv6Sume32.Sume

open Lib

variable {k j d n h : Nat} {i : Instr} {seen : List Nat} {g : Sig} {st : PathState} {v : View}

-- ======== the property

/-- A point of a path in the function declared at `d` is not at the `end`
that closes the function, and the path stops there only for a `ret` or a
`trap`. -/
def GoesOn (ts : List Instr) (d : Nat) (g : Sig) (st : PathState) : Prop :=
  ¬ Closes ts d st.pc ∧ ∃ i, ts[st.pc]? = some i
    ∧ (i.token = .ret ∨ i.token = .trap ∨ ∃ st', PathStep ts g st st')

/-- There is a function, every function is closed by an `end` of its own,
and no path falls out of its function. -/
def NoFallThrough (ts : List Instr) : Prop :=
  (∃ d g, Declares ts d g) ∧ openAt ts ts.length = []
    ∧ ∀ d g, Declares ts d g → ∀ st, FnPath ts d g st → GoesOn ts d g st

-- ======== the scan

/-- Instruction `k` is a branch to the block opened at `j`. -/
def branchesTo (ts : List Instr) (j k : Nat) : Bool :=
  match ts[k]? with
  | none => false
  | some i => (i.token = .br || i.token = .brIf) && 0 ≤ i.arg.toInt
      && (openAt ts k)[i.arg.toInt.toNat]? = some j

/-- Whether the instruction behind `k` is reached, given those up to `k`
that are. -/
def reachesNext (ts : List Instr) (seen : List Nat) (k : Nat) : Bool :=
  match ts[k]? with
  | none => false
  | some i =>
      match i.token with
      | .vDeclfn | .iDeclfn => true
      | .ret | .trap | .br => false
      | .end_ =>
          match openAt ts k with
          | j :: _ :: _ => seen.contains k
              || (ts[j]?.map Instr.token = some .block
                && seen.any (branchesTo ts j))
          | _ => false
      | _ => seen.contains k

/-- The instructions up to `k` that a path reaches. -/
def reached (ts : List Instr) : Nat → List Nat
  | 0 => []
  | k + 1 =>
      if reachesNext ts (reached ts k) k then (k + 1) :: reached ts k
      else reached ts k

/-- There is a function, every function is closed, and the scan reaches
no `end` that closes one. -/
def Guarded (ts : List Instr) : Prop :=
  sigsOf ts ≠ [] ∧ openAt ts ts.length = []
    ∧ ∀ e ∈ reached ts ts.length,
      ¬ (ts[e]?.map Instr.token = some .end_ ∧ (openAt ts e).length = 1)

instance (ts : List Instr) : Decidable (Guarded ts) :=
  inferInstanceAs (Decidable (_ ∧ _ ∧ _))

variable {ts : List Instr}

theorem reached_succ_of (h : reachesNext ts (reached ts k) k = true) :
    k + 1 ∈ reached ts (k + 1) := by
  show k + 1 ∈ if reachesNext ts (reached ts k) k then _ else _
  rw [if_pos h]
  exact List.mem_cons_self ..

theorem reached_mono {k' : Nat} (h : j ∈ reached ts k) (hk : k ≤ k') : j ∈ reached ts k' := by
  induction hk with
  | refl => exact h
  | @step m _ ih =>
    show j ∈ if reachesNext ts (reached ts m) m then _ else _
    split
    · exact List.mem_cons_of_mem _ ih
    · exact ih

/-- The tokens that go on with the next instruction and close nothing. -/
def Token.falls : Token → Bool
  | .vDeclfn | .iDeclfn | .ret | .trap | .br | .end_ => false
  | _ => true

theorem reachesNext_falls (hi : ts[k]? = some i) (hf : i.token.falls = true) :
    reachesNext ts seen k = seen.contains k := by
  unfold reachesNext
  rw [hi]
  cases ht : i.token <;> simp [ht, Token.falls] at hf ⊢

theorem reachesNext_decl
    (hi : ts[k]? = some i) (hd : i.token.isDecl = true) : reachesNext ts seen k = true := by
  unfold reachesNext
  rw [hi]
  cases ht : i.token <;> simp [ht, Token.isDecl] at hd ⊢

theorem reachesNext_end {j' : Nat} {rest : List Nat}
    (hi : ts[k]? = some i) (ht : i.token = .end_) (ho : openAt ts k = j :: j' :: rest) :
    reachesNext ts seen k = true ↔ k ∈ seen ∨ (ts[j]?.map Instr.token = some .block
        ∧ ∃ n ∈ seen, branchesTo ts j n = true) := by
  unfold reachesNext
  rw [hi]
  simp only [ht, ho]
  simp

theorem branchesTo_iff (hi : ts[k]? = some i) :
    branchesTo ts j k = true ↔ (i.token = .br ∨ i.token = .brIf)
      ∧ 0 ≤ i.arg.toInt ∧ (openAt ts k)[i.arg.toInt.toNat]? = some j := by
  unfold branchesTo
  rw [hi]
  simp [and_assoc]

section Accepted

variable {prog : List Byte} {slot : Int}

-- ======== paths are scanned

/-- An effect is that of an instruction that goes on. -/
theorem effect_falls {sigs : List Sig}
    {e : Nat × List Ty} (h : effect sigs g i = some e) : i.token.falls = true := by
  rw [effect_vcase] at h
  cases ht : i.token <;> rw [ht] at h <;> first | rfl | cases h

/-- The label of a path and the block it stands for. -/
theorem PathInv.label (hp : PathInv slot ts d g st v) (hl : st.labels[n]? = some (j, h)) :
    (openAt ts st.pc)[n]? = some j := by
  have hlt : n < st.labels.length := lt_length hl
  rw [hp.opened, List.getElem?_append_left (by simpa using hlt), List.getElem?_map, hl]
  rfl

/-- The blocks of a path are blocks and loops. -/
theorem PathInv.label_block (hacc : Accepted prog slot ts) (hp : PathInv slot ts d g st v)
    (hl : st.labels[n]? = some (j, h)) :
    ∃ i, ts[j]? = some i ∧ (i.token = .block ∨ i.token = .loop) := by
  have hlt : n < st.labels.length := lt_length hl
  obtain ⟨i, vj, hf⟩ := (viewAt_nested hp.bound hp.view).frame n j (hp.label hl)
  refine ⟨i, hf.instr, ?_⟩
  rcases opens_cases hf.opens with h1 | h1
  · exact h1
  · obtain ⟨w, w', hw, -, -, hc⟩ := hacc.check hf.instr
    obtain rfl : vj = w := Option.some.inj (hf.view.symm.trans hw)
    have hnil := (check_decl h1 hc).1
    rw [hf.outer, hp.heights, List.drop_eq_nil_iff] at hnil
    simp at hnil
    omega

/-- A branch inside a block closed at `e`: something encloses the
block. -/
theorem PathInv.close_outer (hacc : Accepted prog slot ts) (hp : PathInv slot ts d g st v) {e : Nat}
    (hl : st.labels[n]? = some (j, h)) (hc : closeOf ts j = some e) :
    ∃ j' rest, openAt ts e = j :: j' :: rest := by
  have hlt : n < st.labels.length := lt_length hl
  obtain ⟨i, vj, hf⟩ := (viewAt_nested hp.bound hp.view).frame n j (hp.label hl)
  have hne : openAt ts j ≠ [] := by
    rw [hf.opened, hp.opened]
    intro hnil
    rw [List.drop_eq_nil_iff] at hnil
    simp at hnil
    omega
  obtain ⟨ie, hie, hend, hhd⟩ := closeOf_inv hc
  obtain ⟨ve, -, hve, -, -, -⟩ := hacc.check hie
  have helt : e < ts.length := lt_length hie
  have hj0 : (openAt ts e)[0]? = some j := by
    rw [← List.head?_eq_getElem?]
    exact hhd
  obtain ⟨i', vj', hfe⟩ := (viewAt_nested (by omega) hve).frame 0 j hj0
  have hopened := hfe.opened
  cases hop : openAt ts e with
  | nil =>
    rw [hop] at hhd
    cases hhd
  | cons a as =>
    rw [hop] at hhd hopened
    obtain rfl : a = j := Option.some.inj hhd
    cases as with
    | nil => exact absurd hopened hne
    | cons b bs => exact ⟨b, bs, rfl⟩

/-- What the scan knows of a point of a path: it is reached, and so is
the first instruction of every loop around it. -/
theorem mem_reached_of_path (hacc : Accepted prog slot ts)
    (hd : Declares ts d g) (h : FnPath ts d g st) : st.pc ∈ reached ts st.pc
      ∧ ∀ l ∈ st.labels, l.1 + 1 ∈ reached ts (l.1 + 1) := by
  induction h with
  | start =>
    obtain ⟨i, hi, hdec, -⟩ := hd
    refine ⟨reached_succ_of (reachesNext_decl hi hdec), fun l hl => ?_⟩
    cases hl
  | @step st st' hst hstep ih =>
    obtain ⟨v, hp⟩ := hacc.path hd hst
    obtain ⟨hin, hloops⟩ := ih
    -- falling to the next instruction
    have hfall : ∀ i, ts[st.pc]? = some i → i.token.falls = true →
        st.pc + 1 ∈ reached ts (st.pc + 1) := by
      intro i hi hf
      refine reached_succ_of ?_
      rw [reachesNext_falls hi hf]
      simpa using hin
    -- branching to an enclosing block
    have hbranch : ∀ i pc' h ls', ts[st.pc]? = some i →
        (i.token = .br ∨ i.token = .brIf) → 0 ≤ i.arg.toInt →
        branch ts st.labels i.arg.toInt.toNat = some (pc', h, ls') →
        pc' ∈ reached ts pc' ∧ ∀ l ∈ ls', l ∈ st.labels := by
      intro i pc' h ls' hi ht h0 hb
      unfold branch at hb
      split at hb
      · cases hb
      next j h' ls hdrop =>
      have hget : st.labels[i.arg.toInt.toNat]? = some (j, h') := by
        have h0 : (st.labels.drop i.arg.toInt.toNat)[0]? = some (j, h') := by
          rw [hdrop]
          rfl
        rwa [List.getElem?_drop, Nat.add_zero] at h0
      have hsub : ∀ l ∈ (j, h') :: ls, l ∈ st.labels := by
        intro l hl
        rw [← hdrop] at hl
        exact List.mem_of_mem_drop hl
      split at hb
      · cases hb
        exact ⟨hloops (j, h) (List.mem_of_getElem? hget), hsub⟩
      · next hnl =>
        obtain ⟨e, he, hb⟩ := Option.map_eq_some_iff.1 hb
        cases hb
        refine ⟨?_, fun l hl => hsub l (List.mem_cons_of_mem _ hl)⟩
        obtain ⟨ie, hie, hend, -⟩ := closeOf_inv he
        obtain ⟨j', rest, hop⟩ := hp.close_outer hacc hget he
        have hopen := hp.label hget
        have hle : st.pc ≤ e := closeOf_ge (List.mem_of_getElem? hopen) he
        refine reached_succ_of ((reachesNext_end hie hend hop).2 (Or.inr ⟨?_,
          st.pc, reached_mono hin hle, (branchesTo_iff hi).2 ⟨ht, h0, hopen⟩⟩))
        obtain ⟨ij, hij, hbl⟩ := hp.label_block hacc hget
        rw [hij, Option.map_some] at hnl ⊢
        rcases hbl with hbl | hbl
        · rw [hbl]
        · rw [hbl] at hnl
          exact absurd rfl hnl
    cases hstep with
    | op hi he hn =>
      exact ⟨hfall _ hi (effect_falls he), hloops⟩
    | @enter pc stk ls i hi ht =>
      have hf : i.token.falls = true := by
        rcases ht with ht | ht <;> rw [ht] <;> rfl
      refine ⟨hfall i hi hf, fun l hl => ?_⟩
      rcases List.mem_cons.1 hl with rfl | hl
      · exact hfall i hi hf
      · exact hloops l hl
    | @leave pc stk ls i j h hi ht =>
      refine ⟨reached_succ_of ?_, fun l hl => hloops l (List.mem_cons_of_mem _ hl)⟩
      have hop : openAt ts pc = j :: (ls.map Prod.fst ++ [d]) := hp.opened
      cases hls : ls.map Prod.fst ++ [d] with
      | nil => simp at hls
      | cons a as =>
        rw [hls] at hop
        exact (reachesNext_end hi ht hop).2 (Or.inl hin)
    | br hi ht h0 hb =>
      obtain ⟨hpc, hsub⟩ := hbranch _ _ _ _ hi (Or.inl ht) h0 hb
      exact ⟨hpc, fun l hl => hloops l (hsub l hl)⟩
    | brIf hi ht h0 hb =>
      obtain ⟨hpc, hsub⟩ := hbranch _ _ _ _ hi (Or.inr ht) h0 hb
      exact ⟨hpc, fun l hl => hloops l (hsub l hl)⟩
    | brIfNot hi ht =>
      exact ⟨hfall _ hi (by rw [ht]; rfl), hloops⟩

-- ======== paths can be taken

/-- An instruction that goes on has a next one on every path. -/
theorem PathInv.falls (hacc : Accepted prog slot ts) (hp : PathInv slot ts d g st v)
    (hi : ts[st.pc]? = some i) (hf : i.token.falls = true) :
    ∃ st', PathStep ts g st st' ∧ st'.pc = st.pc + 1 := by
  obtain ⟨pc, stk, ls⟩ := st
  obtain ⟨v', hok, -, hc⟩ := hacc.check_at hi hp.view
  have hstk : v.stk = stk := hp.stk
  by_cases ho : i.token.opens = true
  · rcases opens_cases ho with ht | hd
    · exact ⟨_, .enter hi ht, rfl⟩
    · cases ht : i.token <;> rw [ht] at hd hf <;> first | cases hf; done | cases hd
  have he : i.token ≠ .end_ := by
    intro ht
    rw [ht] at hf
    cases hf
  have hbase : 0 ∈ v.hts := by
    rw [hp.heights]
    simp
  by_cases hb : i.token = .brIf
  · have hroom := (check_brIf hok hb hc).room 0 hbase
    rw [hstk] at hroom
    cases stk with
    | nil => simp at hroom
    | cons t rest => exact ⟨_, .brIfNot hi hb, rfl⟩
  · obtain ⟨n, push, ha, heff, -⟩ := check_above hok hc (by simpa using ho) he
    have hcases : i.token.vcase ≠ .trap ∧ i.token.vcase ≠ .ret
        ∧ i.token.vcase ≠ .br ∧ i.token.vcase ≠ .brIf := by
      cases ht : i.token <;> rw [ht] at hf hb <;>
        first | (cases hf; done) | (exact absurd rfl hb) | decide
    obtain ⟨h1, h2, h3, h4⟩ := hcases
    have hroom := ha.room 0 hbase
    rw [hstk] at hroom
    exact ⟨_, .op hi (heff g hp.sig h1 h2 h3 h4) (by omega), rfl⟩

/-- A branch reaches the end of the block it names. -/
theorem PathInv.branches (hacc : Accepted prog slot ts) (hp : PathInv slot ts d g st v)
    (hi : ts[st.pc]? = some i) (ht : i.token = .br ∨ i.token = .brIf)
    (h0 : 0 ≤ i.arg.toInt) {pc' : Nat} {ls' : List (Nat × Nat)}
    (hb : branch ts st.labels i.arg.toInt.toNat = some (pc', h, ls')) :
    ∃ st', PathStep ts g st st' ∧ st'.pc = pc' := by
  obtain ⟨pc, stk, ls⟩ := st
  rcases ht with ht | ht
  · exact ⟨_, .br hi ht h0 hb, rfl⟩
  · obtain ⟨v', hok, -, hc⟩ := hacc.check_at hi hp.view
    have hroom := (check_brIf hok ht hc).room 0 (by rw [hp.heights]; simp)
    rw [hp.stk] at hroom
    cases stk with
    | nil => simp at hroom
    | cons t rest => exact ⟨_, .brIf hi ht h0 hb, rfl⟩

/-- The labels of a path at a position are the blocks open there, its
function apart. -/
theorem PathInv.label_of_open (hp : PathInv slot ts d g st v)
    (hj : (openAt ts st.pc)[n]? = some j) (hne : j ≠ d) : ∃ h, st.labels[n]? = some (j, h) := by
  rw [hp.opened] at hj
  have hlt : n < st.labels.length := by
    by_contra hge
    rw [List.getElem?_append_right (by simpa using hge)] at hj
    rw [List.getElem?_singleton] at hj
    split at hj
    · exact hne (Option.some.inj hj).symm
    · cases hj
  rw [List.getElem?_append_left (by simpa using hlt), List.getElem?_map] at hj
  obtain ⟨⟨j', h⟩, hl, rfl⟩ := Option.map_eq_some_iff.1 hj
  exact ⟨h, hl⟩

/-- Every instruction the scan reaches is on a path. -/
theorem path_of_mem_reached (hacc : Accepted prog slot ts) : ∀ {k e : Nat}, e ∈ reached ts k →
      ∃ d g st, Declares ts d g ∧ FnPath ts d g st ∧ st.pc = e := by
  intro k
  induction k with
  | zero =>
    intro e he
    cases he
  | succ k ih =>
    intro e he
    have he' : e ∈ if reachesNext ts (reached ts k) k then
        (k + 1) :: reached ts k else reached ts k := he
    split at he'
    case isFalse => exact ih he'
    rename_i hnext
    rcases List.mem_cons.1 he' with rfl | he'
    case inr => exact ih he'
    cases hi : ts[k]? with
    | none =>
      unfold reachesNext at hnext
      rw [hi] at hnext
      cases hnext
    | some i =>
      cases hd : i.token.isDecl with
      | true => exact ⟨k, _, _, ⟨i, hi, hd, rfl⟩, .start, rfl⟩
      | false =>
      by_cases hf : i.token.falls = true
      · rw [reachesNext_falls hi hf] at hnext
        obtain ⟨d, g, st, hdec, hst, rfl⟩ := ih (by simpa using hnext)
        obtain ⟨v, hp⟩ := hacc.path hdec hst
        obtain ⟨st', hstep, hpc⟩ := hp.falls hacc hi hf
        exact ⟨d, g, st', hdec, .step hst hstep, hpc⟩
      · have ht : i.token = .end_ := by
          unfold reachesNext at hnext
          rw [hi] at hnext
          cases ht : i.token <;> simp [ht, Token.falls, Token.isDecl] at *
        -- the end of a block
        obtain ⟨j, j', rest, hop⟩ : ∃ j j' rest, openAt ts k = j :: j' :: rest := by
          unfold reachesNext at hnext
          rw [hi] at hnext
          simp only [ht] at hnext
          split at hnext
          · next j j' rest hop => exact ⟨j, j', rest, hop⟩
          · cases hnext
        have hcl : closeOf ts j = some k := by
          refine closeOf_of_closes ⟨?_, ?_⟩
          · rw [hi, Option.map_some, ht]
          · rw [hop]
            rfl
        rcases (reachesNext_end hi ht hop).1 hnext with hin | ⟨hblk, n, hn, hbr⟩
        · obtain ⟨d, g, st, hdec, hst, rfl⟩ := ih hin
          obtain ⟨v, hp⟩ := hacc.path hdec hst
          have hopened := hp.opened
          obtain ⟨pc, stk, ls⟩ := st
          cases ls with
          | nil =>
            rw [hop] at hopened
            simp at hopened
          | cons l ls =>
            exact ⟨d, g, _, hdec, .step hst (.leave hi ht), rfl⟩
        · obtain ⟨d, g, st, hdec, hst, rfl⟩ := ih hn
          obtain ⟨v, hp⟩ := hacc.path hdec hst
          obtain ⟨ib, hib⟩ : ∃ ib, ts[st.pc]? = some ib := by
            unfold branchesTo at hbr
            cases hib : ts[st.pc]? with
            | none =>
              rw [hib] at hbr
              cases hbr
            | some ib => exact ⟨ib, rfl⟩
          obtain ⟨htb, h0, hopen⟩ := (branchesTo_iff hib).1 hbr
          have hne : j ≠ d := by
            rintro rfl
            obtain ⟨i', hi', hd', -⟩ := hdec
            rw [hi'] at hblk
            rw [Option.some.inj hblk] at hd'
            cases hd'
          obtain ⟨h, hl⟩ := hp.label_of_open hopen hne
          have hbranch : branch ts st.labels ib.arg.toInt.toNat
              = some (k + 1, h, st.labels.drop (ib.arg.toInt.toNat + 1)) := by
            obtain ⟨hlt, hget⟩ := List.getElem?_eq_some_iff.1 hl
            unfold branch
            rw [List.drop_eq_getElem_cons hlt, hget]
            show (if ts[j]?.map Instr.token = some .loop then _ else _) = _
            rw [hblk, if_neg (by simp), hcl]
            rfl
          obtain ⟨st', hstep, hpc⟩ := hp.branches hacc hib htb h0 hbranch
          exact ⟨d, g, st', hdec, .step hst hstep, hpc⟩

-- ======== the equivalence

/-- Where only its function is open, a path is at no block. -/
theorem PathInv.closes_iff (hp : PathInv slot ts d g st v) :
    (openAt ts st.pc).head? = some d ↔ (openAt ts st.pc).length = 1 := by
  have hsorted := openAt_sorted ts st.pc
  rw [hp.opened] at hsorted ⊢
  cases hl : st.labels with
  | nil => simp
  | cons l ls =>
    rw [hl] at hsorted
    have hgt : l.1 > d := (List.pairwise_cons.1 hsorted).1 d (by simp)
    constructor
    · intro h
      have : l.1 = d := Option.some.inj h
      omega
    · intro h
      simp at h

/-- The operand of a `br` or `br_if` on a path names a label. -/
theorem PathInv.label_exists (hacc : Accepted prog slot ts) (hp : PathInv slot ts d g st v)
    (hi : ts[st.pc]? = some i) (ht : i.token = .br ∨ i.token = .brIf) :
    0 ≤ i.arg.toInt ∧ ∃ l, st.labels[i.arg.toInt.toNat]? = some l := by
  obtain ⟨v', -, -, hc⟩ := hacc.check_at hi hp.view
  obtain ⟨h0, h1⟩ := check_label ht hc
  rw [hp.heights] at h1
  simp only [List.length_append, List.length_map, List.length_singleton] at h1
  have hlt : i.arg.toInt.toNat < st.labels.length := by omega
  exact ⟨h0, _, List.getElem?_eq_getElem hlt⟩

/-- The label of a `br` or `br_if` on a path leads somewhere, when every
block is closed. -/
theorem PathInv.branch_exists (hacc : Accepted prog slot ts)
    (hp : PathInv slot ts d g st v) (hclosed : openAt ts ts.length = [])
    (hi : ts[st.pc]? = some i) (ht : i.token = .br ∨ i.token = .brIf) : 0 ≤ i.arg.toInt
      ∧ ∃ r, branch ts st.labels i.arg.toInt.toNat = some r := by
  obtain ⟨h0, ⟨j, h⟩, hget⟩ := hp.label_exists hacc hi ht
  have hlt : i.arg.toInt.toNat < st.labels.length := lt_length hget
  refine ⟨h0, ?_⟩
  unfold branch
  rw [List.drop_eq_getElem_cons hlt, (List.getElem?_eq_some_iff.1 hget).2]
  show ∃ r, (if ts[j]?.map Instr.token = some .loop then _ else _) = some r
  split
  · exact ⟨_, rfl⟩
  · obtain ⟨e, he⟩ := closeOf_exists (List.mem_of_getElem? (hp.label hget))
      hp.bound (by rw [hclosed]; exact List.not_mem_nil)
    rw [he]
    exact ⟨_, rfl⟩

/-- A path in a program without open functions goes on unless it is at
the `end` of its function. -/
theorem PathInv.goesOn (hacc : Accepted prog slot ts) (hp : PathInv slot ts d g st v)
    (hclosed : openAt ts ts.length = []) (hncl : ¬ Closes ts d st.pc) : GoesOn ts d g st := by
  have hne : st.pc ≠ ts.length := by
    intro he
    have := hp.opened
    rw [he, hclosed] at this
    simp at this
  have hlt : st.pc < ts.length := Nat.lt_of_le_of_ne hp.bound hne
  have hi := List.getElem?_eq_getElem hlt
  refine ⟨hncl, _, hi, ?_⟩
  by_cases hf : ts[st.pc].token.falls = true
  · obtain ⟨st', hstep, -⟩ := hp.falls hacc hi hf
    exact Or.inr (Or.inr ⟨st', hstep⟩)
  cases hd : ts[st.pc].token.isDecl with
  | true =>
    obtain ⟨w', -, -, hc⟩ := hacc.check_at hi hp.view
    have := (check_decl hd hc).1
    rw [hp.heights] at this
    simp at this
  | false =>
    cases ht : ts[st.pc].token
    case ret => exact Or.inl rfl
    case trap => exact Or.inr (Or.inl rfl)
    case br =>
      obtain ⟨h0, ⟨pc', h, ls'⟩, hb⟩ := hp.branch_exists hacc hclosed hi (Or.inl ht)
      obtain ⟨st', hstep, -⟩ := hp.branches hacc hi (Or.inl ht) h0 hb
      exact Or.inr (Or.inr ⟨st', hstep⟩)
    case end_ =>
      obtain ⟨pc, stk, ls⟩ := st
      cases ls with
      | nil =>
        refine absurd ⟨?_, ?_⟩ hncl
        · rw [hi, Option.map_some, ht]
        · rw [hp.opened]
          rfl
      | cons l ls => exact Or.inr (Or.inr ⟨_, .leave hi ht⟩)
    all_goals simp [ht, Token.falls, Token.isDecl] at hf hd

/-- The paths of an accepted program fall out of no function exactly when
the scan says so. -/
theorem noFallThrough_iff (hacc : Accepted prog slot ts) : NoFallThrough ts ↔ Guarded ts := by
  constructor
  · rintro ⟨⟨d0, g0, hd0⟩, hclosed, hpaths⟩
    refine ⟨?_, hclosed, fun e he hend => ?_⟩
    · intro hnil
      have := hd0.sig
      rw [hnil] at this
      cases this
    · obtain ⟨d, g, st, hdec, hst, rfl⟩ := path_of_mem_reached hacc he
      obtain ⟨v, hp⟩ := hacc.path hdec hst
      exact (hpaths d g hdec st hst).1 ⟨hend.1, hp.closes_iff.2 hend.2⟩
  · rintro ⟨hsigs, hclosed, hscan⟩
    refine ⟨?_, hclosed, fun d g hdec st hst => ?_⟩
    · obtain ⟨g, hg⟩ : ∃ g, (sigsOf ts)[0]? = some g :=
        ⟨_, List.getElem?_eq_getElem (List.length_pos_iff.2 hsigs)⟩
      obtain ⟨d, hd, -⟩ := exists_declares hg
      exact ⟨d, g, hd⟩
    · obtain ⟨v, hp⟩ := hacc.path hdec hst
      refine hp.goesOn hacc hclosed fun hcl => ?_
      exact hscan st.pc (reached_mono (mem_reached_of_path hacc hdec hst).1 hp.bound)
        ⟨hcl.1, hp.closes_iff.1 hcl.2⟩

end Accepted

end Xv6Sume32.Sume
