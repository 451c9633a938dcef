/-
The block structure of an instruction list: what is open where, and
which `end` closes what.

`openAt` is a stack discipline on positions. Everything said about it
here follows from three facts: an opening token pushes its own position,
an `end` pops, nothing else moves (`openAt_opens`, `openAt_end`,
`openAt_other`). In particular a position that has been popped never
comes back, so the first `end` that finds a block innermost is the only
one (`closeOf_of_closes`).
-/
import Xv6Sume32.Sume.Program
import Xv6Sume32.Sume.Proofs.Scan

namespace Xv6Sume32.Sume

open Lib

variable {k j k' e d : Nat} {i : Instr} {t : Token} {g : Sig}

theorem openAt_opens {ts : List Instr}
    (hi : ts[k]? = some i) (ho : i.token.opens = true) :
    openAt ts (k + 1) = k :: openAt ts k := by
  rw [openAt, hi]
  exact if_pos ho

theorem openAt_end {ts : List Instr}
    (hi : ts[k]? = some i) (ht : i.token = .end_) :
    openAt ts (k + 1) = (openAt ts k).tail := by
  rw [openAt, hi]
  show (if i.token.opens then _ else if i.token = .end_ then _ else _) = _
  rw [ht]
  rfl

theorem openAt_other {ts : List Instr}
    (hi : ts[k]? = some i) (ho : i.token.opens = false)
    (ht : i.token ≠ .end_) : openAt ts (k + 1) = openAt ts k := by
  rw [openAt, hi]
  show (if i.token.opens then _ else if i.token = .end_ then _ else _) = _
  rw [ho, if_neg (by decide), if_neg ht]

/-- A token that opens is a block, a loop or a declaration. -/
theorem opens_cases (h : t.opens = true) : (t = .block ∨ t = .loop) ∨ t.isDecl = true := by
  cases t <;> simp [Token.opens, Token.isDecl] at h ⊢

theorem isDecl_opens (h : t.isDecl = true) : t.opens = true := by
  cases t <;> simp [Token.opens, Token.isDecl] at h ⊢

theorem isDecl_false (h : t.opens = false) : t.isDecl = false := by
  cases t <;> simp [Token.opens, Token.isDecl] at h ⊢

variable {ts : List Instr}

-- ======== open positions

/-- What is open was opened before, or just now. -/
theorem openAt_succ_subset (h : j ∈ openAt ts (k + 1)) :
    j = k ∨ j ∈ openAt ts k := by
  cases hi : ts[k]? with
  | none =>
    refine Or.inr ?_
    have : openAt ts (k + 1) = openAt ts k := by rw [openAt, hi]
    rwa [this] at h
  | some i =>
    by_cases ho : i.token.opens = true
    · rw [openAt_opens hi ho] at h
      exact List.mem_cons.1 h
    · by_cases he : i.token = .end_
      · rw [openAt_end hi he] at h
        exact Or.inr (List.mem_of_mem_tail h)
      · rw [openAt_other hi (by simpa using ho) he] at h
        exact Or.inr h

theorem openAt_lt (h : j ∈ openAt ts k) : j < k := by
  induction k with
  | zero => cases h
  | succ k ih =>
    rcases openAt_succ_subset h with rfl | h
    · exact Nat.lt_succ_self _
    · exact Nat.lt_succ_of_lt (ih h)

/-- Positions are open innermost first: in falling order. -/
theorem openAt_sorted (ts : List Instr) (k : Nat) :
    (openAt ts k).Pairwise (· > ·) := by
  induction k with
  | zero => exact List.Pairwise.nil
  | succ k ih =>
    cases hi : ts[k]? with
    | none =>
      have : openAt ts (k + 1) = openAt ts k := by rw [openAt, hi]
      rw [this]
      exact ih
    | some i =>
      by_cases ho : i.token.opens = true
      · rw [openAt_opens hi ho, List.pairwise_cons]
        exact ⟨fun j hj => openAt_lt hj, ih⟩
      · by_cases he : i.token = .end_
        · rw [openAt_end hi he]
          exact ih.tail
        · rw [openAt_other hi (by simpa using ho) he]
          exact ih

/-- An open position holds an opening token. -/
theorem openAt_instr (h : j ∈ openAt ts k) :
    ∃ i, ts[j]? = some i ∧ i.token.opens = true := by
  induction k with
  | zero => cases h
  | succ k ih =>
    cases hi : ts[k]? with
    | none =>
      rcases openAt_succ_subset h with rfl | h
      · have : openAt ts (j + 1) = openAt ts j := by rw [openAt, hi]
        rw [this] at h
        exact absurd (openAt_lt h) (Nat.lt_irrefl j)
      · exact ih h
    | some i =>
      by_cases ho : i.token.opens = true
      · rcases openAt_succ_subset h with rfl | h
        · exact ⟨i, hi, ho⟩
        · exact ih h
      · rcases openAt_succ_subset h with rfl | h
        · by_cases he : i.token = .end_
          · rw [openAt_end hi he] at h
            exact absurd (openAt_lt (List.mem_of_mem_tail h))
              (Nat.lt_irrefl j)
          · rw [openAt_other hi (by simpa using ho) he] at h
            exact absurd (openAt_lt h) (Nat.lt_irrefl j)
        · exact ih h

/-- A position that is closed stays closed. -/
theorem not_openAt_mono (hj : j < k) (h : j ∉ openAt ts k) (hk : k ≤ k') : j ∉ openAt ts k' := by
  induction hk with
  | refl => exact h
  | step hk ih =>
    intro hm
    rcases openAt_succ_subset hm with rfl | hm
    · exact absurd hj (by simpa using hk)
    · exact ih hm

-- ======== closing

/-- The `end` that closes a block is an instruction with that block
innermost. -/
theorem closeOf_inv (h : closeOf ts j = some e) :
    ∃ i, ts[e]? = some i ∧ i.token = .end_ ∧ (openAt ts e).head? = some j := by
  unfold closeOf at h
  have hc : Closes ts j e := by
    have := List.find?_some h
    simpa using this
  obtain ⟨ht, hhd⟩ := hc
  obtain ⟨i, hi, ht⟩ := Option.map_eq_some_iff.1 ht
  exact ⟨i, hi, ht, hhd⟩

/-- The position an `end` closes is closed behind it. -/
theorem closes_not_open (h : Closes ts j e) : j ∉ openAt ts (e + 1) := by
  obtain ⟨ht, hhd⟩ := h
  obtain ⟨i, hi, ht⟩ := Option.map_eq_some_iff.1 ht
  rw [openAt_end hi ht]
  have hs := openAt_sorted ts e
  cases hop : openAt ts e with
  | nil =>
    rw [hop] at hhd
    cases hhd
  | cons a as =>
    rw [hop] at hhd hs
    obtain rfl : a = j := Option.some.inj hhd
    intro hm
    exact absurd ((List.pairwise_cons.1 hs).1 a hm) (Nat.lt_irrefl a)

theorem Closes.mem (h : Closes ts j e) : j ∈ openAt ts e :=
  List.mem_of_mem_head? h.2

/-- The `end` that finds a block innermost is the one that closes
it. -/
theorem closeOf_of_closes (h : Closes ts j e) : closeOf ts j = some e := by
  have he : e < ts.length := by
    obtain ⟨i, hi, -⟩ := Option.map_eq_some_iff.1 h.1
    exact lt_length hi
  cases hc : closeOf ts j with
  | none =>
    unfold closeOf at hc
    have := List.find?_eq_none.1 hc e (List.mem_range.2 he)
    exact absurd (decide_eq_true h) this
  | some e' =>
    obtain ⟨i, hi, ht, hhd⟩ := closeOf_inv hc
    have hc' : Closes ts j e' := by
      refine ⟨?_, hhd⟩
      rw [hi, Option.map_some, ht]
    -- two such ends would find the block open after it was closed
    rcases Nat.lt_trichotomy e e' with hlt | rfl | hgt
    · exact absurd hc'.mem (not_openAt_mono (Nat.lt_succ_of_lt (openAt_lt h.mem))
        (closes_not_open h) hlt)
    · rfl
    · exact absurd h.mem (not_openAt_mono (Nat.lt_succ_of_lt (openAt_lt hc'.mem))
        (closes_not_open hc') hgt)

theorem closeOf_closes (h : closeOf ts j = some e) : Closes ts j e := by
  obtain ⟨i, hi, ht, hhd⟩ := closeOf_inv h
  refine ⟨?_, hhd⟩
  rw [hi, Option.map_some, ht]

/-- What is open and later is not was closed. -/
theorem closeOf_exists (h : j ∈ openAt ts k) (hk : k ≤ k')
    (h' : j ∉ openAt ts k') : ∃ e, closeOf ts j = some e := by
  induction hk with
  | refl => exact absurd h h'
  | @step m hm ih =>
    by_cases hj : j ∈ openAt ts m
    · cases hi : ts[m]? with
      | none =>
        have : openAt ts (m + 1) = openAt ts m := by rw [openAt, hi]
        rw [this] at h'
        exact absurd hj h'
      | some i =>
        by_cases ho : i.token.opens = true
        · rw [openAt_opens hi ho] at h'
          exact absurd (List.mem_cons_of_mem _ hj) h'
        · by_cases ht : i.token = .end_
          · rw [openAt_end hi ht] at h'
            cases hop : openAt ts m with
            | nil =>
              rw [hop] at hj
              cases hj
            | cons a as =>
              rw [hop] at hj h'
              rcases List.mem_cons.1 hj with rfl | hj
              · refine ⟨m, closeOf_of_closes ⟨?_, ?_⟩⟩
                · rw [hi, Option.map_some, ht]
                · rw [hop]
                  rfl
              · exact absurd hj h'
          · rw [openAt_other hi (by simpa using ho) ht] at h'
            exact absurd hj h'
    · exact ih hj

/-- A position open at `k` has its `end` at `k` or later. -/
theorem closeOf_ge (h : j ∈ openAt ts k) (hc : closeOf ts j = some e) : k ≤ e := by
  by_contra hlt
  have hcl := closeOf_closes hc
  exact not_openAt_mono (Nat.lt_succ_of_lt (openAt_lt hcl.mem)) (closes_not_open hcl) (by omega) h

-- ======== declarations

/-- A declaration's signature stands behind those before it. -/
theorem Declares.sig {ts : List Instr}
    (h : Declares ts d g) : (sigsOf ts)[declsBefore ts d]? = some g := by
  obtain ⟨i, hi, hd, rfl⟩ := h
  have hlt : d < ts.length := lt_length hi
  have hsplit : ts = ts.take d ++ i :: ts.drop (d + 1) := by
    rw [List.getElem?_eq_getElem hlt] at hi
    cases hi
    rw [List.cons_getElem_drop_succ, List.take_append_drop]
  have happ : sigsOf ts = sigsOf (ts.take d) ++ sigsOf (i :: ts.drop (d + 1)) := by
    rw [← sigsOf_append, ← hsplit]
  unfold declsBefore
  rw [happ, List.getElem?_append_right (Nat.le_refl _), Nat.sub_self, sigsOf_cons, if_pos hd]
  rfl

/-- Declarations are counted one by one. -/
theorem declsBefore_succ (hi : ts[k]? = some i) : declsBefore ts (k + 1)
      = declsBefore ts k + if i.token.isDecl then 1 else 0 := by
  unfold declsBefore
  rw [List.take_add_one, hi, sigsOf_append, List.length_append]
  congr 1
  show (sigsOf [i]).length = _
  rw [sigsOf_cons]
  split <;> rfl

theorem declsBefore_mono (h : k ≤ k') : declsBefore ts k ≤ declsBefore ts k' :=
  (((List.take_sublist_take_left h).filter _).map _).length_le

theorem declsBefore_length (ts : List Instr) : declsBefore ts ts.length = (sigsOf ts).length := by
  unfold declsBefore
  rw [List.take_length]

/-- Two declarations have different numbers. -/
theorem Declares.unique {d' : Nat} {g' : Sig} (h : Declares ts d g)
    (h' : Declares ts d' g') (he : declsBefore ts d = declsBefore ts d') : d = d' := by
  obtain ⟨i, hi, hd, -⟩ := h
  obtain ⟨i', hi', hd', -⟩ := h'
  have h1 := declsBefore_succ hi
  have h2 := declsBefore_succ hi'
  rw [hd] at h1
  rw [hd'] at h2
  simp only [if_true] at h1 h2
  rcases Nat.lt_trichotomy d d' with hlt | heq | hgt
  · have : declsBefore ts (d + 1) ≤ declsBefore ts d' := declsBefore_mono hlt
    omega
  · exact heq
  · have : declsBefore ts (d' + 1) ≤ declsBefore ts d := declsBefore_mono hgt
    omega

/-- Every function number has its declaration. -/
theorem exists_declares {n : Nat} (h : (sigsOf ts)[n]? = some g) :
    ∃ d, Declares ts d g ∧ declsBefore ts d = n := by
  have hn : n < (sigsOf ts).length := lt_length h
  -- the count passes `n` at some position
  have hpass : ∀ k, n < declsBefore ts k →
      ∃ d i, ts[d]? = some i ∧ i.token.isDecl = true ∧ declsBefore ts d = n := by
    intro k
    induction k with
    | zero =>
      intro hk
      cases hk
    | succ k ih =>
      intro hk
      by_cases hlt : n < declsBefore ts k
      · exact ih hlt
      cases hi : ts[k]? with
      | none =>
        unfold declsBefore at hk hlt
        rw [List.take_add_one, hi] at hk
        simp only [Option.toList_none, List.append_nil] at hk
        exact absurd hk hlt
      | some i =>
        rw [declsBefore_succ hi] at hk
        cases hd : i.token.isDecl with
        | false =>
          rw [hd] at hk
          exact absurd hk hlt
        | true =>
          rw [hd] at hk
          simp only [if_true] at hk
          exact ⟨k, i, hi, hd, by omega⟩
  obtain ⟨d, i, hi, hd, hdn⟩ := hpass ts.length (by rwa [declsBefore_length])
  have hdecl : Declares ts d ⟨i.token.declRt, i.params, i.locals⟩ := ⟨i, hi, hd, rfl⟩
  have hg := hdecl.sig
  rw [hdn, h] at hg
  cases hg
  exact ⟨d, hdecl, hdn⟩

/-- The declaration of a function is found by its number. -/
theorem declPos_eq (h : Declares ts d g) : declPos ts (declsBefore ts d) = some d := by
  obtain ⟨i, hi, hd, -⟩ := id h
  have hlt : d < ts.length := lt_length hi
  unfold declPos
  rw [List.find?_range_eq_some]
  refine ⟨?_, List.mem_range.2 hlt, fun m hm => ?_⟩
  · rw [hi, Option.map_some, hd]
    simp
  · cases him : ts[m]? with
    | none => simp
    | some im =>
      rw [Option.map_some, Bool.not_eq_eq_eq_not, Bool.not_true, decide_eq_false_iff_not]
      rintro ⟨hdm, he⟩
      have hm' : Declares ts m ⟨im.token.declRt, im.params, im.locals⟩ :=
        ⟨im, him, Option.some.inj hdm, rfl⟩
      have := hm'.unique h he
      omega

end Xv6Sume32.Sume
