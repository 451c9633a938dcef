/-
What the assembler reads and where it writes.

Every scanner but one tests for the end of the text before it reads, so
over any memory that holds the text it does what the scanner of `ToIr`
does on the list (`consumeWhitespace_of`, `getInt_of` and the others).
The exception is the loop of `get_type_list`, and the results of this
file say when that matters.

# Type lists

`get_type_list` stores codes as long as type names follow each other.
`Stops` says how many it stores and where it stops, which depends on the
text alone: at a character that starts no type name, at the end of the
text, or at a name whose code is behind the buffer. What it does there
depends on the one byte it stops at (`ending`), and behind the end of
the text that byte is not the assembler's.

# Reads

A run reads behind the text exactly when it comes to a declaration that
the text ends in (`assembler_reads_inside_iff`), and apart from that no
two memories that hold the text can be told apart.

# Writes

Nothing keeps the codes inside `instr_buf`. The second list starts where
the first ended, and code `4 * (100 - base)` of a list is the first one
behind the buffer, whether it belongs to a type or to the terminator
(`instr_buf_bounded_iff`).
-/
import Xv6Sume32.Lib.Outcome
import Xv6Sume32.Sume.Reader
import Xv6Sume32.Sume.Proofs.Numerals

namespace Xv6Sume32.Sume.Reader

open Lib
open ToIr (ch chars isWhitespace charToInt instrs instrBufSz ParseState bufBytes putWord)

variable {prog : List Byte} {mem : Mem}

variable {i k : Nat} {t : Ty} {r : Nat × (Nat → Byte) × Nat}

/-- Memory that holds the text. -/
def Holds (mem : Mem) (prog : List Byte) : Prop := ∀ i, i < prog.length → mem i = prog[i]?

theorem holds_textMem (prog : List Byte) : Holds (textMem prog) prog := fun _ _ => rfl

/-- A result of `ToIr` as one of a run. -/
def asRun {α : Type} : Res α → Run α
  | .ok a => .ok a
  | .error _ => .error .reject

theorem asRun_bind {α β : Type} (x : Res α) (f : α → Res β) :
    asRun (x >>= f) = asRun x >>= fun a => asRun (f a) := by
  cases x <;> rfl

theorem asRun_ok {α : Type} {x : Res α} {a : α} (h : asRun x = .ok a) : x = .ok a := by
  cases x <;> cases h
  rfl

theorem asRun_error {α : Type} {x : Res α} {f : Fault} (h : asRun x = .error f) : f = .reject := by
  cases x <;> cases h
  rfl

-- ======== the scanners

/-- Behind the word, `is_prefix` looks at one character. -/
theorem isPrefix_append (pre rest : List Byte) :
    ToIr.isPrefix pre (pre ++ rest) = ToIr.isPrefix [] rest := by
  induction pre with
  | nil => rfl
  | cons p ps ih => rw [List.cons_append, ToIr.isPrefix, ih, beq_self_eq_true, Bool.true_and]

section Scanners

variable (h : Holds mem prog)

include h

theorem read_of (hi : i < prog.length) : read mem i = .ok prog[i] := by
  unfold read
  rw [h i hi, List.getElem?_eq_getElem hi]

theorem isWord_of {w : List Byte} : ∀ {i : Nat}, i + w.length ≤ prog.length →
      isWord mem w i = .ok (w.isPrefixOf (prog.drop i)) := by
  induction w with
  | nil => intro i _; rfl
  | cons p ps ih =>
    intro i hi
    rw [List.length_cons] at hi
    have hlt : i < prog.length := by omega
    refine bind_of_ok (read_of h hlt) ?_
    rw [List.drop_eq_getElem_cons hlt, List.isPrefixOf_cons_cons]
    by_cases hp : p = prog[i]
    · rw [if_pos hp, ih (by omega), beq_iff_eq.2 hp, Bool.true_and]
    · rw [if_neg hp, beq_eq_false_iff_ne.2 hp, Bool.false_and]

theorem isPrefix_of {pre : List Byte} {p : Nat} (hp : p ≤ prog.length) :
    isPrefix mem pre p (prog.length - p) = .ok (ToIr.isPrefix pre (prog.drop p)) := by
  unfold isPrefix
  by_cases hlen : prog.length - p < pre.length
  · rw [if_pos hlen]
    refine congrArg _ (Bool.eq_false_iff.2 fun hpre => ?_).symm
    obtain ⟨rest, hw, -⟩ := isPrefix_iff.1 hpre
    have := congrArg List.length hw
    rw [List.length_drop, List.length_append] at this
    omega
  rw [if_neg hlen]
  refine bind_of_ok (isWord_of h (by omega)) ?_
  -- what `Parted` says of the character behind the word
  cases hw : pre.isPrefixOf (prog.drop p) with
  | false =>
    refine congrArg Except.ok (Bool.eq_false_iff.2 fun hpre => ?_).symm
    obtain ⟨rest, hrest, -⟩ := isPrefix_iff.1 hpre
    rw [hrest, List.isPrefixOf_iff_prefix.2 (List.prefix_append pre rest)] at hw
    cases hw
  | true =>
    obtain ⟨rest, hrest⟩ := List.isPrefixOf_iff_prefix.1 hw
    have hsize := congrArg List.length hrest
    rw [List.length_drop, List.length_append] at hsize
    rw [if_pos rfl, ← hrest, isPrefix_append]
    cases rest with
    | nil => exact if_pos (by simpa using hsize)
    | cons c rest =>
      rw [List.length_cons] at hsize
      have hlt : p + pre.length < prog.length := by omega
      have hc : prog[p + pre.length] = c := by
        have := getElem?_of_drop hrest.symm pre.length
        rw [List.getElem?_eq_getElem hlt, List.getElem?_append_right (Nat.le_refl _),
          Nat.sub_self] at this
        exact Option.some.inj this
      rw [if_neg (by omega)]
      refine bind_of_ok (read_of h hlt) ?_
      rw [hc]
      rfl

theorem findToken_of {p : Nat} (hp : p ≤ prog.length) :
    ∀ (ss : List String) (i : Nat), findToken mem p (prog.length - p) ss i
      = .ok (ToIr.findToken (prog.drop p) ss i) := by
  intro ss
  induction ss with
  | nil => intro i; rfl
  | cons s ss ih =>
    intro i
    refine bind_of_ok (isPrefix_of h hp) ?_
    unfold ToIr.findToken
    split
    · rfl
    · exact ih (i + 1)

theorem getNextInstrToken_of {p : Nat} (hp : p ≤ prog.length) :
    getNextInstrToken mem prog.length p = .ok (ToIr.getNextInstrToken prog p) :=
  bind_of_ok (findToken_of h hp instrs 0) rfl

theorem getLineLoop_of (fuel : Nat) :
    ∀ p, getLineLoop mem prog.length fuel p = .ok (ToIr.getLineLoop prog fuel p) := by
  induction fuel with
  | zero => intro p; rfl
  | succ fuel ih =>
    intro p
    unfold getLineLoop ToIr.getLineLoop
    by_cases hp : p < prog.length
    · rw [if_pos hp, List.getElem?_eq_getElem hp]
      refine bind_of_ok (read_of h hp) ?_
      dsimp only
      split
      · exact ih (p + 1)
      · rfl
    · rw [if_neg hp, List.getElem?_eq_none (by omega)]

theorem getLine_of (p : Nat) : getLine mem prog.length p = .ok (ToIr.getLine prog p) :=
  bind_of_ok (getLineLoop_of h prog.length p) rfl

theorem consumeLoop_of (fuel : Nat) :
    ∀ p, consumeLoop mem prog.length fuel p = .ok (ToIr.consumeLoop prog fuel p) := by
  induction fuel with
  | zero => intro p; rfl
  | succ fuel ih =>
    intro p
    unfold consumeLoop ToIr.consumeLoop
    by_cases hp : p < prog.length
    · rw [if_pos hp, List.getElem?_eq_getElem hp]
      refine bind_of_ok (read_of h hp) ?_
      dsimp only
      split
      · exact bind_of_ok (getLine_of h (p + 1)) (ih _)
      · split
        · exact ih (p + 1)
        · rfl
    · rw [if_neg hp, List.getElem?_eq_none (by omega)]

theorem consumeWhitespace_of (p : Nat) :
    consumeWhitespace mem prog.length p = .ok (ToIr.consumeWhitespace prog p) :=
  consumeLoop_of h prog.length p

theorem getChar_of (p : Nat) : getChar mem prog.length p = asRun (ToIr.getChar prog p) := by
  unfold getChar ToIr.getChar
  by_cases hp : p < prog.length
  · rw [if_neg (by omega), List.getElem?_eq_getElem hp]
    exact bind_of_ok (read_of h hp) rfl
  · rw [if_pos (by omega), List.getElem?_eq_none (by omega)]
    rfl

theorem getSign_of (p : Nat) : getSign mem prog.length p = asRun (ToIr.getSign prog p) := by
  unfold getSign ToIr.getSign
  rw [asRun_bind, getChar_of h]
  refine bind_congr fun ⟨cur, q⟩ => ?_
  dsimp only
  split
  · rw [asRun_bind, getChar_of h]
    rfl
  · rfl

theorem getRadix_of (cur : Byte) (p : Nat) :
    getRadix mem prog.length cur p = asRun (ToIr.getRadix prog cur p) := by
  unfold getRadix ToIr.getRadix
  rw [getChar_of h]
  split
  · rw [asRun_bind]
    rfl
  · split
    · rw [asRun_bind]
      rfl
    · split
      · rw [asRun_bind]
        rfl
      · rfl

theorem getIntLoop_of (radix : Nat) (fuel : Nat) : ∀ w p, getIntLoop mem prog.length radix fuel w p
      = asRun (ToIr.getIntLoop prog radix fuel w p) := by
  induction fuel with
  | zero => intro w p; rfl
  | succ fuel ih =>
    intro w p
    unfold getIntLoop ToIr.getIntLoop
    by_cases hp : p < prog.length
    · rw [if_neg (by omega), List.getElem?_eq_getElem hp]
      refine bind_of_ok (read_of h hp) ?_
      dsimp only
      split
      · rfl
      · cases charToInt prog[p] with
        | none => rfl
        | some v =>
          dsimp only
          split
          · rfl
          · exact ih _ _
    · rw [if_pos (by omega), List.getElem?_eq_none (by omega)]
      rfl

theorem getInt_of (p : Nat) : getInt mem prog.length p = asRun (ToIr.getInt prog p) := by
  unfold getInt ToIr.getInt
  rw [asRun_bind, getSign_of h]
  refine bind_congr fun ⟨neg, cur, q⟩ => ?_
  dsimp only
  rw [asRun_bind, getRadix_of h]
  refine bind_congr fun ⟨radix, cur, q⟩ => ?_
  dsimp only
  cases charToInt cur with
  | none => rfl
  | some v =>
    dsimp only
    rw [asRun_bind, getIntLoop_of h]
    rfl

theorem typeAt_of {p : Nat} (hp : p + 3 < prog.length) :
    typeAt mem p = .ok (ToIr.typeAt prog p) := by
  have hthree : ∃ a b c rest, prog.drop p = a :: b :: c :: rest := by
    rw [List.drop_eq_getElem_cons (by omega), List.drop_eq_getElem_cons (by omega),
      List.drop_eq_getElem_cons (by omega)]
    exact ⟨_, _, _, _, rfl⟩
  obtain ⟨a, b, c, rest, hdrop⟩ := hthree
  have h0 : prog[p]? = some a := head_of_drop hdrop
  have h1 : prog[p + 1]? = some b := getElem?_of_drop hdrop 1
  have h2 : prog[p + 2]? = some c := getElem?_of_drop hdrop 2
  have hword : ∀ x y z : Byte, isWord mem [x, y, z] p = .ok (decide (a = x ∧ b = y ∧ c = z)) := by
    intro x y z
    rw [isWord_of h (by simp only [List.length_cons, List.length_nil]; omega), hdrop]
    rw [Except.ok.injEq, Bool.eq_iff_iff]
    simp only [List.isPrefixOf, Bool.and_eq_true, beq_iff_eq, decide_eq_true_eq, and_true]
    constructor <;> exact fun ⟨ha, hb, hc⟩ => ⟨ha.symm, hb.symm, hc.symm⟩
  unfold ToIr.typeAt
  rw [h0, h1, h2]
  simp only [Option.some.injEq]
  refine bind_of_ok (hword (ch 'i') (ch 'n') (ch 't')) ?_
  by_cases hint : a = ch 'i' ∧ b = ch 'n' ∧ c = ch 't'
  · rw [if_pos hint, if_pos (decide_eq_true hint)]
  · rw [if_neg hint, if_neg (by rw [decide_eq_false hint]; decide)]
    refine bind_of_ok (hword (ch 'f') (ch 'l') (ch 't')) ?_
    by_cases hflt : a = ch 'f' ∧ b = ch 'l' ∧ c = ch 't'
    · rw [if_pos hflt, if_pos (decide_eq_true hflt)]
    · rw [if_neg hflt, if_neg (by rw [decide_eq_false hflt]; decide)]

end Scanners

-- ======== type lists

/-- The name of a type stands at `p`, and the text goes on behind it. -/
def NameAt (prog : List Byte) (p : Nat) : Prop :=
  p + 3 < prog.length ∧ (ToIr.typeAt prog p).isSome = true

instance (p : Nat) : Decidable (NameAt prog p) := inferInstanceAs (Decidable (_ ∧ _))

/-- From `p` on stand the names of `n` types, with gaps behind them. The
place behind all that is `e`. -/
inductive TypesFrom (prog : List Byte) : Nat → Nat → Nat → Prop
  | nil {p} : TypesFrom prog p 0 p
  | cons {p n e} (hname : NameAt prog p)
      (h : TypesFrom prog (ToIr.consumeWhitespace prog (p + 3)) n e) :
      TypesFrom prog p (n + 1) e

/-- The list at `q`, whose codes are written from index `base` of the
buffer on, has room for `n` types and stops at `e`: at something that is
no type name, or at one name too many. -/
def Stops (prog : List Byte) (base q n e : Nat) : Prop :=
  prog[q]? = some (ch '(') ∧ TypesFrom prog (ToIr.consumeWhitespace prog (q + 1)) n e
    ∧ n ≤ 4 * (instrBufSz - base) ∧ (NameAt prog e → n = 4 * (instrBufSz - base))

variable {base p q n n' e e' tkn : Nat} {f : Fault} {s : ParseState}

theorem exists_types (k : Nat) :
    ∀ p, ∃ n e, TypesFrom prog p n e ∧ n ≤ k ∧ (NameAt prog e → n = k) := by
  induction k with
  | zero => exact fun p => ⟨0, p, .nil, Nat.le_refl _, fun _ => rfl⟩
  | succ k ih =>
    intro p
    by_cases hname : NameAt prog p
    · obtain ⟨n, e, ht, hle, hend⟩ := ih (ToIr.consumeWhitespace prog (p + 3))
      exact ⟨n + 1, e, .cons hname ht, Nat.succ_le_succ hle, fun h => congrArg _ (hend h)⟩
    · exact ⟨0, p, .nil, Nat.zero_le _, fun h => absurd h hname⟩

/-- Where the names stop is determined. -/
theorem TypesFrom.unique (h : TypesFrom prog p n e)
    (h' : TypesFrom prog p n' e') (hle : n ≤ k) (hle' : n' ≤ k) (hend : NameAt prog e → n = k)
    (hend' : NameAt prog e' → n' = k) : n = n' ∧ e = e' := by
  induction h generalizing n' k with
  | nil =>
    cases h' with
    | nil => exact ⟨rfl, rfl⟩
    | cons hname _ =>
      have := hend hname
      omega
  | cons hname h ih =>
    cases h' with
    | nil =>
      have := hend' hname
      omega
    | cons _ h' =>
      obtain ⟨rfl, rfl⟩ := ih h' (k := k - 1) (by omega) (by omega)
        (fun hn => by have := hend hn; omega) (fun hn => by have := hend' hn; omega)
      exact ⟨rfl, rfl⟩

theorem Stops.unique (h : Stops prog base q n e)
    (h' : Stops prog base q n' e') : n = n' ∧ e = e' :=
  h.2.1.unique h'.2.1 h.2.2.1 h'.2.2.1 h.2.2.2 h'.2.2.2

theorem typeAt_ne_paren (h : ToIr.typeAt prog p = some t) :
    prog[p]? ≠ some (ch ')') := by
  unfold ToIr.typeAt at h
  split at h
  · rename_i hint
    rw [hint.1]
    decide
  · split at h
    · rename_i hflt
      rw [hflt.1]
      decide
    · cases h

theorem le_getLineLoop (fuel : Nat) : ∀ p, p ≤ ToIr.getLineLoop prog fuel p := by
  induction fuel with
  | zero => exact fun p => Nat.le_refl p
  | succ fuel ih =>
    intro p
    unfold ToIr.getLineLoop
    split
    · exact Nat.le_refl p
    · split
      · exact Nat.le_of_succ_le (ih (p + 1))
      · exact Nat.le_refl p

theorem le_consumeLoop (fuel : Nat) : ∀ p, p ≤ ToIr.consumeLoop prog fuel p := by
  induction fuel with
  | zero => exact fun p => Nat.le_refl p
  | succ fuel ih =>
    intro p
    unfold ToIr.consumeLoop
    split
    · exact Nat.le_refl p
    · split
      · have hline : p + 1 ≤ ToIr.getLineLoop prog prog.length (p + 1) := le_getLineLoop _ _
        have := ih (ToIr.getLine prog (p + 1))
        unfold ToIr.getLine at this ⊢
        omega
      · split
        · exact Nat.le_of_succ_le (ih (p + 1))
        · exact Nat.le_refl p

theorem le_consumeWhitespace (prog : List Byte) (p : Nat) : p ≤ ToIr.consumeWhitespace prog p :=
  le_consumeLoop prog.length p

theorem TypesFrom.le (h : TypesFrom prog p n e) : p ≤ e := by
  induction h with
  | nil => exact Nat.le_refl _
  | @cons p n e _ _ ih =>
    have := le_consumeWhitespace prog (p + 3)
    omega

theorem TypesFrom.le_length (h : TypesFrom prog p n e) : n ≤ prog.length := by
  have hall : n = 0 ∨ p + n < prog.length := by
    induction h with
    | nil => exact .inl rfl
    | @cons p n e hname _ ih =>
      have := le_consumeWhitespace prog (p + 3)
      have := hname.1
      omega
  omega

-- -------- the loop

/-- The loop at a type name. -/
theorem getTypeListLoop_name {fuel : Nat} {buf : Nat → Byte} (h : Holds mem prog)
    (hlt : p + 3 < prog.length) (ht : ToIr.typeAt prog p = some t) :
    getTypeListLoop mem prog.length base (fuel + 1) p buf k
      = setCode buf base k t >>= fun buf => getTypeListLoop mem prog.length base fuel
        (ToIr.consumeWhitespace prog (p + 3)) buf (k + 1) := by
  have hparen : prog[p] ≠ ch ')' := fun hc =>
    typeAt_ne_paren ht (by rw [List.getElem?_eq_getElem (by omega), hc])
  refine bind_of_ok (read_of h (by omega)) ?_
  rw [if_neg hparen, if_neg (by omega)]
  refine bind_of_ok (typeAt_of h hlt) ?_
  rw [ht]
  exact bind_congr fun buf => bind_of_ok (consumeWhitespace_of h (p + 3)) rfl

/-- The codes of names that fit are stored one after the other. -/
theorem getTypeListLoop_types (base : Nat) (ht : TypesFrom prog p n e) :
    ∀ (fuel k : Nat) (buf : Nat → Byte), (∀ j, j < n → base + (k + j) / 4 < instrBufSz) →
      ∃ buf', ∀ mem, Holds mem prog → getTypeListLoop mem prog.length base (fuel + n) p buf k
          = getTypeListLoop mem prog.length base fuel e buf' (k + n) := by
  induction ht with
  | nil => exact fun fuel k buf _ => ⟨buf, fun _ _ => rfl⟩
  | @cons p n e hname ht ih =>
    intro fuel k buf hfit
    obtain ⟨hlt, hsome⟩ := hname
    obtain ⟨t, ht⟩ := Option.isSome_iff_exists.1 hsome
    have hset : ∃ buf1, setCode buf base k t = .ok buf1 := ⟨_, if_pos (hfit 0 (Nat.succ_pos n))⟩
    obtain ⟨buf1, hset⟩ := hset
    obtain ⟨buf', hrun⟩ := ih fuel (k + 1) buf1 fun j hj => by
      rw [Nat.add_assoc, Nat.add_comm 1]
      exact hfit (j + 1) (Nat.succ_lt_succ hj)
    refine ⟨buf', fun mem h => ?_⟩
    refine (getTypeListLoop_name h hlt ht).trans (bind_of_ok hset ((hrun mem h).trans ?_))
    rw [Nat.add_assoc, Nat.add_comm 1]

/-- What `get_type_list` does with `n` codes stored where it stops: the
place behind the list and its number of bytes. -/
def ending (mem : Mem) (prog : List Byte) (base n e : Nat) : Run (Nat × Nat) :=
  if NameAt prog e then .error (.overflow (base + n / 4))
  else
    match mem e with
    | none => .error (.outside e)
    | some c =>
        if c = ch ')' then
          if base + n / 4 < instrBufSz then .ok (e + 1, n / 4 + 1)
          else .error (.overflow (base + n / 4))
        else .error .reject

/-- The loop at the place where it stops: an error of `ending`, or the
end of the list. -/
theorem getTypeListLoop_stop (h : Holds mem prog)
    (hover : NameAt prog e → instrBufSz ≤ base + n / 4) (fuel : Nat) (buf : Nat → Byte) :
    getTypeListLoop mem prog.length base (fuel + 1) e buf n
      = if NameAt prog e then .error (.overflow (base + n / 4))
        else
          match mem e with
          | none => .error (.outside e)
          | some c => if c = ch ')' then .ok (e, buf, n) else .error .reject := by
  by_cases hname : NameAt prog e
  · rw [if_pos hname]
    have hbase := hover hname
    obtain ⟨hlt, hsome⟩ := hname
    obtain ⟨t, ht⟩ := Option.isSome_iff_exists.1 hsome
    rw [getTypeListLoop_name h hlt ht]
    exact bind_of_error (if_neg (by omega))
  · rw [if_neg hname]
    unfold getTypeListLoop read
    cases he : mem e with
    | none => rfl
    | some c =>
      refine bind_of_ok (a := c) rfl ?_
      by_cases hc : c = ch ')'
      · rw [if_pos hc]
        exact (if_pos hc).symm
      · rw [if_neg hc]
        dsimp only
        rw [if_neg hc]
        by_cases hlen : prog.length ≤ e + 3
        · rw [if_pos hlen]
        · rw [if_neg hlen]
          refine bind_of_ok (typeAt_of h (by omega)) ?_
          have hnone : ToIr.typeAt prog e = none := by
            rw [← Option.not_isSome_iff_eq_none]
            exact fun hsome => hname ⟨by omega, hsome⟩
          rw [hnone]

theorem zeroCodes_fit (hfit : base + n / 4 < instrBufSz) :
    ∀ {k : Nat} (pos : Nat) (buf : Nat → Byte), n ≤ pos → pos + k ≤ 4 * (n / 4 + 1) →
      ∃ buf', zeroCodes base k pos buf = .ok buf' := by
  intro k
  induction k with
  | zero => exact fun _ buf _ _ => ⟨buf, rfl⟩
  | succ k ih =>
    intro pos buf hle hlt
    have hpos : pos / 4 = n / 4 := by omega
    obtain ⟨buf', hrest⟩ := ih (pos + 1) _ (by omega) (by omega)
    exact ⟨buf', bind_of_ok (if_pos (by rw [hpos]; exact hfit)) hrest⟩

theorem zeroCodes_over (hover : ¬ base + n / 4 < instrBufSz) (buf : Nat → Byte) :
    zeroCodes base (4 * (n / 4 + 1) - n) n buf = .error (.overflow (base + n / 4)) := by
  obtain ⟨k, hk⟩ : ∃ k, 4 * (n / 4 + 1) - n = k + 1 := ⟨4 * (n / 4 + 1) - n - 1, by omega⟩
  rw [hk]
  exact bind_of_error (if_neg hover)

/-- The result of `get_type_list`, over every memory that holds the
text. -/
theorem getTypeList_result (prog : List Byte) (base q : Nat) (buf : Nat → Byte) :
    (prog[q]? ≠ some (ch '(')
      ∧ ∀ mem, Holds mem prog → getTypeList mem prog.length q buf base = .error .reject)
    ∨ ∃ n e buf', Stops prog base q n e ∧ ∀ mem, Holds mem prog →
        getTypeList mem prog.length q buf base
          = (ending mem prog base n e).map fun r => (r.1, buf', r.2) := by
  by_cases hopen : prog[q]? = some (ch '(')
  swap
  · refine .inl ⟨hopen, fun mem h => ?_⟩
    unfold getTypeList
    rw [getChar_of h]
    unfold ToIr.getChar
    cases hq : prog[q]? with
    | none => rfl
    | some c =>
      refine bind_of_ok (a := (c, q + 1)) rfl ?_
      exact if_pos fun hc => hopen (by rw [hq, hc])
  obtain ⟨n, e, ht, hle, hend⟩ : ∃ n e,
      TypesFrom prog (ToIr.consumeWhitespace prog (q + 1)) n e
        ∧ n ≤ 4 * (instrBufSz - base) ∧ (NameAt prog e → n = 4 * (instrBufSz - base)) :=
    exists_types _ _
  obtain ⟨fuel, hfuel⟩ : ∃ fuel, prog.length + 1 = fuel + 1 + n :=
    ⟨prog.length - n, by have := ht.le_length; omega⟩
  obtain ⟨buf1, hloop⟩ := getTypeListLoop_types base ht (fuel + 1) 0 buf
    fun j hj => by omega
  have hzero : ∃ buf2, base + n / 4 < instrBufSz →
      zeroCodes base (4 * (n / 4 + 1) - n) n buf1 = .ok buf2 := by
    by_cases hfit : base + n / 4 < instrBufSz
    · obtain ⟨buf2, hzero⟩ := zeroCodes_fit hfit (k := 4 * (n / 4 + 1) - n) n buf1
        (Nat.le_refl n) (by omega)
      exact ⟨buf2, fun _ => hzero⟩
    · exact ⟨buf1, fun hlt => absurd hlt hfit⟩
  obtain ⟨buf2, hzero⟩ := hzero
  refine .inr ⟨n, e, buf2, ⟨hopen, ht, hle, hend⟩, fun mem h => ?_⟩
  have hchar : getChar mem prog.length q = .ok (ch '(', q + 1) := by
    rw [getChar_of h]
    unfold ToIr.getChar
    rw [hopen]
    rfl
  refine bind_of_ok hchar ?_
  dsimp only
  rw [if_neg (by simp)]
  refine bind_of_ok (consumeWhitespace_of h (q + 1)) ?_
  rw [hfuel, hloop mem h, Nat.zero_add,
    getTypeListLoop_stop h (fun hname => by have := hend hname; omega)]
  unfold ending
  split
  · rfl
  · cases mem e with
    | none => rfl
    | some c =>
      dsimp only
      split
      · refine bind_of_ok (a := (e, buf1, n)) rfl ?_
        dsimp only
        split
        · rename_i hfit
          exact bind_of_ok (hzero hfit) rfl
        · rename_i hfit
          exact bind_of_error (zeroCodes_over hfit buf1)
      · rfl

-- -------- how the list ends

/-- Inside the text every memory gives the same ending. -/
theorem ending_text (h : Holds mem prog) (he : e < prog.length) :
    ending mem prog base n e = ending (textMem prog) prog base n e := by
  unfold ending textMem
  rw [h e he]

/-- A list that ends well ends with its parenthesis. -/
theorem ending_eq_ok {r : Nat × Nat} : ending mem prog base n e = .ok r ↔
      ¬ NameAt prog e ∧ mem e = some (ch ')') ∧ base + n / 4 < instrBufSz
        ∧ r = (e + 1, n / 4 + 1) := by
  unfold ending
  constructor
  · intro h
    split at h
    · cases h
    · rename_i hname
      split at h
      · cases h
      · rename_i c hc
        split at h
        · rename_i hparen
          split at h
          · rename_i hfit
            cases h
            exact ⟨hname, by rw [hc, hparen], hfit, rfl⟩
          · cases h
        · cases h
  · rintro ⟨hname, hc, hfit, rfl⟩
    rw [if_neg hname, hc]
    dsimp only
    rw [if_pos rfl, if_pos hfit]

theorem ending_outside : ending mem prog base n e = .error (.outside i) ↔
      ¬ NameAt prog e ∧ mem e = none ∧ i = e := by
  unfold ending
  constructor
  · intro h
    split at h
    · cases h
    · rename_i hname
      split at h
      · rename_i hc
        cases h
        exact ⟨hname, hc, rfl⟩
      · split at h
        · split at h <;> cases h
        · cases h
  · rintro ⟨hname, hc, rfl⟩
    rw [if_neg hname, hc]

theorem ending_overflow {i : Nat} : ending mem prog base n e = .error (.overflow i) ↔
      (NameAt prog e ∨ mem e = some (ch ')') ∧ instrBufSz ≤ base + n / 4) ∧ i = base + n / 4 := by
  unfold ending
  constructor
  · intro h
    split at h
    · rename_i hname
      cases h
      exact ⟨.inl hname, rfl⟩
    · split at h
      · cases h
      · rename_i c hc
        split at h
        · rename_i hparen
          split at h
          · cases h
          · rename_i hfit
            cases h
            exact ⟨.inr ⟨by rw [hc, hparen], by omega⟩, rfl⟩
        · cases h
  · rintro ⟨hname | ⟨hc, hover⟩, rfl⟩
    · exact if_pos hname
    · by_cases hname : NameAt prog e
      · exact if_pos hname
      · rw [if_neg hname, hc]
        dsimp only
        rw [if_pos rfl, if_neg (by omega)]

-- ======== one instruction

/-- At `p` stands the mnemonic of a declaration, and its first type list
should start at `q`. -/
def DeclAt (prog : List Byte) (p q : Nat) : Prop :=
  ∃ tkn p', ToIr.getNextInstrToken prog p = some (tkn, p')
    ∧ (Token.ofByte (BitVec.ofNat 8 tkn)).map Token.operand = some .types
    ∧ q = ToIr.consumeWhitespace prog p'

/-- One of the two lists of the declaration at `p` has a property, which
may depend on where in the buffer its codes start. -/
def InDecl (prog : List Byte) (P : Nat → Nat → Prop) (p : Nat) : Prop :=
  ∃ q, DeclAt prog p q
    ∧ (P 1 q
      ∨ ∃ n e, Stops prog 1 q n e ∧ prog[e]? = some (ch ')') ∧ n / 4 + 1 < instrBufSz
        ∧ P (n / 4 + 2) (ToIr.consumeWhitespace prog (e + 1)))

/-- The two lists of a declaration. -/
def parseLists (mem : Mem) (len : Nat) (s : ParseState) (q tkn : Nat) : Run ParseState := do
  let (place, buf, n) ← getTypeList mem len q (Function.update s.buf 0 (BitVec.ofNat 8 tkn)) 1
  let place ← consumeWhitespace mem len place
  let (place, buf, m) ← getTypeList mem len place buf (1 + n)
  .ok ⟨place, buf, s.out ++ bufBytes buf (1 + n + m)⟩

/-- A round of the loop: a declaration, or something that every memory
gives the same result for. -/
theorem parseInstr_cases (prog : List Byte) (s : ParseState) (hs : s.place ≤ prog.length) :
    (∃ tkn q, (∀ q', DeclAt prog s.place q' ↔ q' = q)
      ∧ ∀ mem, Holds mem prog → parseInstr mem prog.length s = parseLists mem prog.length s q tkn)
    ∨ (∀ q, ¬ DeclAt prog s.place q) ∧ ∀ mem, Holds mem prog →
        parseInstr mem prog.length s = asRun (ToIr.parseInstr prog s) := by
  cases htok : ToIr.getNextInstrToken prog s.place with
  | none =>
    refine .inr ⟨?_, fun mem h => ?_⟩
    · rintro q ⟨tkn, p', h, -⟩
      rw [htok] at h
      cases h
    · unfold ToIr.parseInstr
      rw [htok]
      exact bind_of_ok (getNextInstrToken_of h hs) (by rw [htok]; rfl)
  | some r =>
    obtain ⟨tkn, p'⟩ := r
    have hdecl : ∀ q', DeclAt prog s.place q' ↔
        (Token.ofByte (BitVec.ofNat 8 tkn)).map Token.operand = some .types
          ∧ q' = ToIr.consumeWhitespace prog p' := by
      intro q'
      constructor
      · rintro ⟨tkn', p'', h, hop, hq⟩
        rw [htok] at h
        cases h
        exact ⟨hop, hq⟩
      · exact fun ⟨hop, hq⟩ => ⟨tkn, p', htok, hop, hq⟩
    have hrun : ∀ mem, Holds mem prog →
        getNextInstrToken mem prog.length s.place = .ok (some (tkn, p')) :=
      fun mem h => by rw [getNextInstrToken_of h hs, htok]
    by_cases hop : (Token.ofByte (BitVec.ofNat 8 tkn)).map Token.operand = some .types
    · refine .inl ⟨tkn, ToIr.consumeWhitespace prog p', fun q' => ?_, fun mem h => ?_⟩
      · rw [hdecl]
        exact and_iff_right hop
      · refine bind_of_ok (hrun mem h) ?_
        dsimp only
        rw [hop]
        exact bind_of_ok (consumeWhitespace_of h p') rfl
    · refine .inr ⟨fun q hq => hop ((hdecl q).1 hq).1, fun mem h => ?_⟩
      unfold ToIr.parseInstr
      rw [htok]
      refine bind_of_ok (hrun mem h) ?_
      dsimp only
      match hcase : (Token.ofByte (BitVec.ofNat 8 tkn)).map Token.operand with
      | none | some .none => rfl
      | some .types => exact absurd hcase hop
      | some .int =>
        dsimp only
        refine bind_of_ok (consumeWhitespace_of h p') ?_
        rw [getInt_of h, asRun_bind]
        rfl

-- -------- faults of a list

/-- `get_type_list` ends the list at `q` with a fault. -/
def Faults (mem : Mem) (prog : List Byte) (f : Fault) (base q : Nat) : Prop :=
  ∃ n e, Stops prog base q n e ∧ ending mem prog base n e = .error f

theorem map_eq_error {ε α β : Type} {x : Except ε α} {g : α → β} {f : ε} :
    x.map g = .error f ↔ x = .error f := by
  cases x with
  | error e =>
    show Except.error e = Except.error f ↔ _
    rw [Except.error.injEq, Except.error.injEq]
  | ok a => exact ⟨nofun, nofun⟩

theorem map_eq_ok {ε α β : Type} {x : Except ε α} {g : α → β} {b : β} :
    x.map g = .ok b ↔ ∃ a, x = .ok a ∧ g a = b := by
  cases x with
  | error e => exact ⟨nofun, fun ⟨_, h, _⟩ => nomatch h⟩
  | ok a =>
    constructor
    · intro h
      cases h
      exact ⟨a, rfl, rfl⟩
    · rintro ⟨a', h, rfl⟩
      cases h
      rfl

section Instruction

variable (h : Holds mem prog)

include h

theorem getTypeList_fault (hf : f ≠ .reject) {buf : Nat → Byte} :
    getTypeList mem prog.length q buf base = .error f ↔ Faults mem prog f base q := by
  rcases getTypeList_result prog base q buf with ⟨hopen, hrej⟩ | ⟨n, e, buf', hstops, hrun⟩
  · rw [hrej mem h]
    constructor
    · intro heq
      cases heq
      exact absurd rfl hf
    · rintro ⟨n, e, hstops, -⟩
      exact absurd hstops.1 hopen
  · rw [hrun mem h, map_eq_error]
    constructor
    · exact fun hend => ⟨n, e, hstops, hend⟩
    · rintro ⟨n', e', hstops', hend⟩
      obtain ⟨rfl, rfl⟩ := hstops.unique hstops'
      exact hend

theorem getTypeList_ok {buf : Nat → Byte} {r : Nat × (Nat → Byte) × Nat}
    (hr : getTypeList mem prog.length q buf base = .ok r) :
    ∃ n e, Stops prog base q n e ∧ mem e = some (ch ')') ∧ base + n / 4 < instrBufSz
      ∧ r.1 = e + 1 ∧ r.2.2 = n / 4 + 1 := by
  rcases getTypeList_result prog base q buf with ⟨-, hrej⟩ | ⟨n, e, buf', hstops, hrun⟩
  · rw [hrej mem h] at hr
    cases hr
  · rw [hrun mem h, map_eq_ok] at hr
    obtain ⟨a, hend, rfl⟩ := hr
    obtain ⟨-, hc, hfit, rfl⟩ := ending_eq_ok.1 hend
    exact ⟨n, e, hstops, hc, hfit, rfl, rfl⟩

theorem getTypeList_closed (hstops : Stops prog base q n e)
    (hc : prog[e]? = some (ch ')')) (hfit : base + n / 4 < instrBufSz) (buf : Nat → Byte) :
    ∃ buf', getTypeList mem prog.length q buf base = .ok (e + 1, buf', n / 4 + 1) := by
  rcases getTypeList_result prog base q buf with ⟨hopen, -⟩ | ⟨n', e', buf', hstops', hrun⟩
  · exact absurd hstops.1 hopen
  · obtain ⟨rfl, rfl⟩ := hstops.unique hstops'
    refine ⟨buf', ?_⟩
    obtain ⟨he, -⟩ := List.getElem?_eq_some_iff.1 hc
    have hname : ¬ NameAt prog e := by
      rintro ⟨-, hsome⟩
      obtain ⟨t, ht⟩ := Option.isSome_iff_exists.1 hsome
      exact typeAt_ne_paren ht hc
    rw [hrun mem h, map_eq_ok]
    exact ⟨_, ending_eq_ok.2 ⟨hname, (h e he).trans hc, hfit, rfl⟩, rfl⟩

theorem getTypeList_le {buf : Nat → Byte}
    (hr : getTypeList mem prog.length q buf base = .ok r) : q ≤ r.1 := by
  obtain ⟨n, e, hstops, -, -, hr1, -⟩ := getTypeList_ok h hr
  have hgap := le_consumeWhitespace prog (q + 1)
  have hnames := hstops.2.1.le
  omega

/-- Two memories that hold the text differ only where the text ends in
the list. -/
theorem getTypeList_agree (base q : Nat) (buf : Nat → Byte) :
    getTypeList mem prog.length q buf base = getTypeList (textMem prog) prog.length q buf base
    ∨ (∃ e, getTypeList (textMem prog) prog.length q buf base = .error (.outside e))
      ∧ ∀ r, getTypeList mem prog.length q buf base = .ok r → prog.length < r.1 := by
  have ht := holds_textMem prog
  rcases getTypeList_result prog base q buf with ⟨-, hrej⟩ | ⟨n, e, buf', -, hrun⟩
  · exact .inl (by rw [hrej mem h, hrej _ ht])
  · rw [hrun mem h, hrun _ ht]
    by_cases he : e < prog.length
    · exact .inl (by rw [ending_text h he])
    · refine .inr ⟨⟨e, ?_⟩, fun r hr => ?_⟩
      · rw [map_eq_error, ending_outside]
        exact ⟨fun hname => by have := hname.1; omega,
          List.getElem?_eq_none (by omega), rfl⟩
      · obtain ⟨a, hend, rfl⟩ := map_eq_ok.1 hr
        obtain ⟨-, -, -, rfl⟩ := ending_eq_ok.1 hend
        exact Nat.lt_succ_of_le (by omega)

omit h in
/-- There is no list behind the end of the text. -/
theorem getTypeList_behind (hq : prog.length ≤ q) (base : Nat) (buf : Nat → Byte) :
    getTypeList mem prog.length q buf base = .error .reject := by
  unfold getTypeList
  refine bind_of_error ?_
  exact if_pos hq

-- -------- the two lists

/-- The second list, where the first one ended well. -/
theorem parseLists_second
    (hr : getTypeList mem prog.length q (Function.update s.buf 0 (BitVec.ofNat 8 tkn)) 1 = .ok r) :
    parseLists mem prog.length s q tkn
      = (getTypeList mem prog.length (ToIr.consumeWhitespace prog r.1) r.2.1 (1 + r.2.2)).map
        fun r' => ⟨r'.1, r'.2.1, s.out ++ bufBytes r'.2.1 (1 + r.2.2 + r'.2.2)⟩ := by
  refine bind_of_ok hr (bind_of_ok (consumeWhitespace_of h r.1) ?_)
  cases getTypeList mem prog.length (ToIr.consumeWhitespace prog r.1) r.2.1 (1 + r.2.2) <;> rfl

theorem parseLists_fault (hf : f ≠ .reject) :
    parseLists mem prog.length s q tkn = .error f ↔ Faults mem prog f 1 q
      ∨ ∃ n e, Stops prog 1 q n e ∧ prog[e]? = some (ch ')') ∧ n / 4 + 1 < instrBufSz
        ∧ Faults mem prog f (n / 4 + 2) (ToIr.consumeWhitespace prog (e + 1)) := by
  cases hfirst : getTypeList mem prog.length q (Function.update s.buf 0 (BitVec.ofNat 8 tkn)) 1 with
  | error f' =>
    have hall : parseLists mem prog.length s q tkn = .error f' := bind_of_error hfirst
    have hone : Faults mem prog f 1 q ↔ f' = f :=
      (getTypeList_fault h hf).symm.trans (by rw [hfirst, Except.error.injEq])
    rw [hall, Except.error.injEq, hone]
    constructor
    · exact .inl
    · rintro (heq | ⟨n, e, hstops, hc, hfit, -⟩)
      · exact heq
      · obtain ⟨buf', hok⟩ := getTypeList_closed h hstops hc (by omega) _
        cases hfirst.symm.trans hok
  | ok r =>
    obtain ⟨n, e, hstops, hc, hfit, hr1, hr2⟩ := getTypeList_ok h hfirst
    rw [parseLists_second h hfirst, map_eq_error, getTypeList_fault h hf, hr1, hr2,
      show 1 + (n / 4 + 1) = n / 4 + 2 by omega]
    constructor
    · intro hsecond
      refine .inr ⟨n, e, hstops, ?_, by omega, hsecond⟩
      -- a second list is read, so the first one ended inside the text
      obtain ⟨n', e', hstops', -⟩ := hsecond
      obtain ⟨hlt, -⟩ := List.getElem?_eq_some_iff.1 hstops'.1
      have := le_consumeWhitespace prog (e + 1)
      rw [← h e (by omega), hc]
    · rintro (hone | ⟨n', e', hstops', -, -, hsecond⟩)
      · cases hfirst.symm.trans ((getTypeList_fault h hf).2 hone)
      · obtain ⟨rfl, rfl⟩ := hstops.unique hstops'
        exact hsecond

theorem parseLists_agree (s : ParseState) (q tkn : Nat) :
    parseLists mem prog.length s q tkn = parseLists (textMem prog) prog.length s q tkn
    ∨ (∃ e, parseLists (textMem prog) prog.length s q tkn = .error (.outside e))
      ∧ ∀ s', parseLists mem prog.length s q tkn = .ok s' → prog.length < s'.place := by
  have ht := holds_textMem prog
  rcases getTypeList_agree h 1 q (Function.update s.buf 0 (BitVec.ofNat 8 tkn)) with
    heq | ⟨⟨e, hout⟩, hlt⟩
  · cases hfirst : getTypeList (textMem prog) prog.length q
        (Function.update s.buf 0 (BitVec.ofNat 8 tkn)) 1 with
    | error f =>
      refine .inl ?_
      unfold parseLists
      rw [bind_of_error hfirst, bind_of_error (heq.trans hfirst)]
    | ok r =>
      rw [parseLists_second h (heq.trans hfirst), parseLists_second ht hfirst]
      rcases getTypeList_agree h (1 + r.2.2) (ToIr.consumeWhitespace prog r.1) r.2.1 with
        heq | ⟨⟨e, hout⟩, hlt⟩
      · exact .inl (by rw [heq])
      · refine .inr ⟨⟨e, map_eq_error.2 hout⟩, fun s' hs' => ?_⟩
        obtain ⟨r', hr', rfl⟩ := map_eq_ok.1 hs'
        exact hlt r' hr'
  · refine .inr ⟨⟨e, bind_of_error hout⟩, fun s' hs' => ?_⟩
    obtain ⟨r, hr, -⟩ := bind_eq_ok.1 hs'
    -- the first list ended behind the text, where no second one starts
    have hbehind := hlt r hr
    have := le_consumeWhitespace prog r.1
    rw [parseLists_second h hr, getTypeList_behind (by omega)] at hs'
    cases hs'

-- -------- a round

theorem parseInstr_fault (hf : f ≠ .reject)
    (hs : s.place ≤ prog.length) :
    parseInstr mem prog.length s = .error f ↔ InDecl prog (Faults mem prog f) s.place := by
  rcases parseInstr_cases prog s hs with ⟨tkn, q, hdecl, hrun⟩ | ⟨hdecl, hrun⟩
  · rw [hrun mem h, parseLists_fault h hf]
    constructor
    · exact fun hlists => ⟨q, (hdecl q).2 rfl, hlists⟩
    · rintro ⟨q', hq', hlists⟩
      rw [hdecl] at hq'
      rw [hq'] at hlists
      exact hlists
  · rw [hrun mem h]
    constructor
    · exact fun heq => absurd (asRun_error heq) hf
    · rintro ⟨q, hq, -⟩
      exact absurd hq (hdecl q)

theorem parseInstr_agree (hs : s.place ≤ prog.length) :
    parseInstr mem prog.length s = parseInstr (textMem prog) prog.length s
    ∨ (∃ e, parseInstr (textMem prog) prog.length s = .error (.outside e))
      ∧ ∀ s', parseInstr mem prog.length s = .ok s' → prog.length < s'.place := by
  have ht := holds_textMem prog
  rcases parseInstr_cases prog s hs with ⟨tkn, q, -, hrun⟩ | ⟨-, hrun⟩
  · rw [hrun mem h, hrun _ ht]
    exact parseLists_agree h s q tkn
  · exact .inl (by rw [hrun mem h, hrun _ ht])

omit h in
theorem findToken_pos {word : List Byte} {l : Nat} :
    ∀ {ss : List String} {k : Nat}, (∀ s ∈ ss, s ∈ instrs) →
      ToIr.findToken word ss k = some (i, l) → 0 < l := by
  intro ss
  induction ss with
  | nil => exact fun _ h => nomatch h
  | cons s ss ih =>
    intro k hmem h
    unfold ToIr.findToken at h
    split at h
    · cases h
      have hne := List.all_eq_true.1 mnemonics_nonempty _
        (List.mem_map_of_mem (hmem s List.mem_cons_self))
      rw [Bool.not_eq_true', List.isEmpty_eq_false_iff] at hne
      exact List.length_pos_iff.2 hne
    · exact ih (fun s hs => hmem s (List.mem_cons_of_mem _ hs)) h

omit h in
theorem getNextInstrToken_lt {p' : Nat}
    (h : ToIr.getNextInstrToken prog p = some (tkn, p')) : p < p' := by
  obtain ⟨⟨i, l⟩, hfind, heq⟩ := Option.map_eq_some_iff.1 h
  cases heq
  have := findToken_pos (fun s hs => hs) hfind
  omega

omit h in
theorem getInt_le {w : Lib.Word} (h : ToIr.getInt prog p = .ok (w, q)) : p ≤ q := by
  obtain ⟨_, _, _, _, _, _, _, _, _, _, _, _, _, _, _, _, _, hend⟩ := getInt_ok h
  rcases hend with ⟨-, hq⟩ | ⟨_, _, -, -, hq⟩ <;> omega

/-- Every round takes something of the text. -/
theorem parseInstr_lt {s' : ParseState} (hs : s.place ≤ prog.length)
    (hrun : parseInstr mem prog.length s = .ok s') : s.place < s'.place := by
  obtain ⟨tok, htok, hrun⟩ := bind_eq_ok.1 hrun
  rw [getNextInstrToken_of h hs, Except.ok.injEq] at htok
  subst htok
  split at hrun
  · cases hrun
  · rename_i tkn p' htok
    have hlt := getNextInstrToken_lt htok
    have hgap := le_consumeWhitespace prog p'
    dsimp only at hrun
    split at hrun
    · obtain ⟨q, hq, hrun⟩ := bind_eq_ok.1 hrun
      obtain ⟨⟨iv, q'⟩, hint, hrun⟩ := bind_eq_ok.1 hrun
      rw [consumeWhitespace_of h, Except.ok.injEq] at hq
      have hle := getInt_le (asRun_ok ((getInt_of h q).symm.trans hint))
      cases hrun
      dsimp only
      omega
    · obtain ⟨q, hq, hrun⟩ := bind_eq_ok.1 hrun
      obtain ⟨r, hr, hrun⟩ := bind_eq_ok.1 hrun
      obtain ⟨q2, hq2, hrun⟩ := bind_eq_ok.1 hrun
      obtain ⟨r2, hr2, hrun⟩ := bind_eq_ok.1 hrun
      rw [consumeWhitespace_of h, Except.ok.injEq] at hq hq2
      have hfirst := getTypeList_le h hr
      have hsecond := getTypeList_le h hr2
      have hgap2 := le_consumeWhitespace prog r.1
      cases hrun
      dsimp only at hq2 ⊢
      omega
    · cases hrun
      exact hlt

end Instruction

-- ======== a run

/-- The states in which the loop of `parse_sume` looks for the next
instruction or the end of the text. -/
inductive Comes (mem : Mem) (len : Nat) (buf : Nat → Byte) : ParseState → Prop
  | start {p : Nat} (hp : consumeWhitespace mem len 0 = .ok p) : Comes mem len buf ⟨p, buf, []⟩
  | next {s s' : ParseState} {p : Nat} (hs : Comes mem len buf s) (hlt : s.place < len)
      (hrun : parseInstr mem len s = .ok s') (hp : consumeWhitespace mem len s'.place = .ok p) :
      Comes mem len buf { s' with place := p }

section Runs

variable (h : Holds mem prog) {buf : Nat → Byte}

include h

/-- The loop behind the whitespace. -/
theorem parseLoop_succ (fuel : Nat) (s : ParseState) : parseLoop mem prog.length (fuel + 1) s
      = if prog.length ≤ ToIr.consumeWhitespace prog s.place then .ok s.out
        else parseInstr mem prog.length { s with place := ToIr.consumeWhitespace prog s.place }
          >>= parseLoop mem prog.length fuel :=
  bind_of_ok (consumeWhitespace_of h s.place) rfl

/-- The fuel is enough for every state the loop comes to. -/
theorem Comes.loop (hs : Comes mem prog.length buf s) :
    ∃ fuel, prog.length ≤ fuel + s.place ∧ parseSume mem prog.length buf
      = if prog.length ≤ s.place then .ok s.out
        else parseInstr mem prog.length s >>= parseLoop mem prog.length fuel := by
  induction hs with
  | start hp =>
    rw [consumeWhitespace_of h, Except.ok.injEq] at hp
    subst hp
    exact ⟨prog.length, Nat.le_add_right _ _, parseLoop_succ h _ _⟩
  | @next s s' p hs hlt hrun hp ih =>
    rw [consumeWhitespace_of h, Except.ok.injEq] at hp
    subst hp
    obtain ⟨fuel, hfuel, heq⟩ := ih
    obtain ⟨fuel, rfl⟩ : ∃ f, fuel = f + 1 := ⟨fuel - 1, by omega⟩
    have hadv := parseInstr_lt h (Nat.le_of_lt hlt) hrun
    have hgap := le_consumeWhitespace prog s'.place
    refine ⟨fuel, by dsimp only; omega, ?_⟩
    rw [heq, if_neg (by omega)]
    exact bind_of_ok hrun (parseLoop_succ h fuel s')

/-- A fault of a run is the fault of a round that it comes to. -/
theorem parseSume_fault : parseSume mem prog.length buf = .error f ↔
      ∃ s, Comes mem prog.length buf s ∧ s.place < prog.length
        ∧ parseInstr mem prog.length s = .error f := by
  constructor
  · -- the loop, started in a state whose successor behind whitespace is reached
    have hloop : ∀ (fuel : Nat) (s : ParseState),
        Comes mem prog.length buf { s with place := ToIr.consumeWhitespace prog s.place } →
        parseLoop mem prog.length fuel s = .error f →
        ∃ s, Comes mem prog.length buf s ∧ s.place < prog.length
          ∧ parseInstr mem prog.length s = .error f := by
      intro fuel
      induction fuel with
      | zero => exact fun s _ heq => nomatch heq
      | succ fuel ih =>
        intro s hs heq
        rw [parseLoop_succ h] at heq
        split at heq
        · cases heq
        · rename_i hlt
          cases hrun : parseInstr mem prog.length
              { s with place := ToIr.consumeWhitespace prog s.place } with
          | error f' =>
            rw [bind_of_error hrun, Except.error.injEq] at heq
            exact ⟨_, hs, by dsimp only; omega, by rw [hrun, heq]⟩
          | ok s' =>
            rw [bind_of_ok hrun rfl] at heq
            exact ih s' (.next hs (by dsimp only; omega) hrun (consumeWhitespace_of h _)) heq
    exact hloop _ _ (.start (consumeWhitespace_of h 0))
  · rintro ⟨s, hs, hlt, hrun⟩
    obtain ⟨fuel, -, heq⟩ := hs.loop h
    rw [heq, if_neg (by omega)]
    exact bind_of_error hrun

/-- Inside the text, the loop comes to the same places over every memory
that holds the text. -/
theorem comes_text (hlt : s.place < prog.length) :
    Comes mem prog.length buf s ↔ Comes (textMem prog) prog.length buf s := by
  have ht := holds_textMem prog
  constructor
  · intro hs
    induction hs with
    | start hp =>
      rw [consumeWhitespace_of h] at hp
      exact .start (by rw [consumeWhitespace_of ht, hp])
    | @next s s' p hs hlt' hrun hp ih =>
      rw [consumeWhitespace_of h, Except.ok.injEq] at hp
      have hgap := le_consumeWhitespace prog s'.place
      refine .next (ih hlt') hlt' ?_ (by rw [consumeWhitespace_of ht, hp])
      rcases parseInstr_agree h (Nat.le_of_lt hlt') with heq | ⟨-, hbehind⟩
      · rw [← heq, hrun]
      · have := hbehind s' hrun
        dsimp only at hlt
        omega
  · intro hs
    clear hlt
    induction hs with
    | start hp =>
      rw [consumeWhitespace_of ht] at hp
      exact .start (by rw [consumeWhitespace_of h, hp])
    | @next s s' p hs hlt' hrun hp ih =>
      rw [consumeWhitespace_of ht] at hp
      refine .next ih hlt' ?_ (by rw [consumeWhitespace_of h, hp])
      rcases parseInstr_agree h (Nat.le_of_lt hlt') with heq | ⟨⟨e, hout⟩, -⟩
      · rw [heq, hrun]
      · rw [hrun] at hout
        cases hout

/-- A run that reads the text only is the same over every memory that
holds it. -/
theorem parseSume_agree : (∃ e, parseSume (textMem prog) prog.length buf = .error (.outside e))
      ∨ parseSume mem prog.length buf = parseSume (textMem prog) prog.length buf := by
  have ht := holds_textMem prog
  have hloop : ∀ (fuel : Nat) (s : ParseState),
      (∃ e, parseLoop (textMem prog) prog.length fuel s = .error (.outside e))
        ∨ parseLoop mem prog.length fuel s = parseLoop (textMem prog) prog.length fuel s := by
    intro fuel
    induction fuel with
    | zero => exact fun s => .inr rfl
    | succ fuel ih =>
      intro s
      rw [parseLoop_succ h, parseLoop_succ ht]
      split
      · exact .inr rfl
      · rename_i hlt
        rcases parseInstr_agree h (s := { s with place := ToIr.consumeWhitespace prog s.place })
            (by dsimp only; omega) with heq | ⟨⟨e, hout⟩, -⟩
        · rw [heq]
          cases parseInstr (textMem prog) prog.length
              { s with place := ToIr.consumeWhitespace prog s.place } with
          | error f => exact .inr rfl
          | ok s' => exact ih s'
        · exact .inl ⟨e, bind_of_error hout⟩
  exact hloop _ _

end Runs

-- ======== the list model

/-- What `ToIr` makes of a fault. -/
def Fault.stop : Fault → Stop
  | .reject => .reject
  | .outside _ | .overflow _ => .undefined

theorem mapError_bind {ε ε' α β : Type} (g : ε → ε') (x : Except ε α) (f : α → Except ε β) :
    (x >>= f).mapError g = x.mapError g >>= fun a => (f a).mapError g := by
  cases x <;> rfl

theorem mapError_asRun {α : Type} {x : Res α}
    (h : Outcome (· = Stop.reject) (fun _ => True) x) : (asRun x).mapError Fault.stop = x := by
  cases x with
  | ok a => rfl
  | error e =>
    obtain rfl : e = .reject := h
    rfl

section NoFault

variable (prog)

theorem getChar_rejects (p : Nat) :
    Outcome (· = Stop.reject) (fun _ => True) (ToIr.getChar prog p) := by
  unfold ToIr.getChar
  split
  · rfl
  · trivial

theorem getSign_rejects (p : Nat) :
    Outcome (· = Stop.reject) (fun _ => True) (ToIr.getSign prog p) := by
  refine (getChar_rejects prog p).bind fun ⟨cur, q⟩ _ => ?_
  dsimp only
  split
  · exact (getChar_rejects prog _).bind fun _ _ => trivial
  · trivial

theorem getRadix_rejects (cur : Byte) (p : Nat) :
    Outcome (· = Stop.reject) (fun _ => True) (ToIr.getRadix prog cur p) := by
  unfold ToIr.getRadix
  split
  · exact (getChar_rejects prog _).bind fun _ _ => trivial
  · split
    · exact (getChar_rejects prog _).bind fun _ _ => trivial
    · split
      · exact (getChar_rejects prog _).bind fun _ _ => trivial
      · trivial

theorem getIntLoop_rejects (radix fuel : Nat) :
    ∀ w p, Outcome (· = Stop.reject) (fun _ => True) (ToIr.getIntLoop prog radix fuel w p) := by
  induction fuel with
  | zero => exact fun _ _ => trivial
  | succ fuel ih =>
    intro w p
    unfold ToIr.getIntLoop
    split
    · trivial
    · split
      · trivial
      · split
        · rfl
        · split
          · rfl
          · exact ih _ _

theorem getInt_rejects (p : Nat) :
    Outcome (· = Stop.reject) (fun _ => True) (ToIr.getInt prog p) := by
  refine (getSign_rejects prog p).bind fun ⟨neg, cur, q⟩ _ => ?_
  refine (getRadix_rejects prog cur q).bind fun ⟨radix, cur, q⟩ _ => ?_
  dsimp only
  split
  · rfl
  · exact (getIntLoop_rejects prog _ _ _ _).bind fun _ _ => trivial

end NoFault

theorem setCode_stop (buf : Nat → Byte) (base pos : Nat) (t : Byte) :
    (setCode buf base pos t).mapError Fault.stop = ToIr.setCode buf base pos t := by
  unfold setCode ToIr.setCode inRange
  by_cases hfit : base + pos / 4 < instrBufSz
  · rw [if_pos hfit, if_pos (decide_eq_true hfit)]
    rfl
  · rw [if_neg hfit, if_neg (by rw [decide_eq_false hfit]; decide)]
    rfl

theorem zeroCodes_stop (base k : Nat) :
    ∀ pos buf, (zeroCodes base k pos buf).mapError Fault.stop = ToIr.zeroCodes base k pos buf := by
  induction k with
  | zero => exact fun _ _ => rfl
  | succ k ih =>
    intro pos buf
    unfold zeroCodes ToIr.zeroCodes
    rw [mapError_bind, setCode_stop]
    exact bind_congr fun buf => ih (pos + 1) buf

/-- A name takes three characters, so that the fuel does not run out in
a list. -/
theorem getTypeListLoop_stop_eq (base fuel : Nat) :
    ∀ p buf n, 0 < fuel → prog.length < fuel + p →
      (getTypeListLoop (textMem prog) prog.length base fuel p buf n).mapError Fault.stop
        = ToIr.getTypeListLoop prog base fuel p buf n := by
  have ht := holds_textMem prog
  induction fuel with
  | zero => exact fun _ _ _ hpos => absurd hpos (Nat.lt_irrefl 0)
  | succ fuel ih =>
    intro p buf n _ hfuel
    unfold getTypeListLoop ToIr.getTypeListLoop
    by_cases hp : p < prog.length
    · rw [List.getElem?_eq_getElem hp, mapError_bind, read_of ht hp]
      refine bind_of_ok (a := prog[p]) rfl ?_
      dsimp only
      split
      · rfl
      · split
        · rfl
        · rename_i hlen
          rw [mapError_bind, typeAt_of ht (by omega)]
          refine bind_of_ok (a := ToIr.typeAt prog p) rfl ?_
          cases ToIr.typeAt prog p with
          | none => rfl
          | some t =>
            dsimp only
            rw [mapError_bind, setCode_stop]
            refine bind_congr fun buf => ?_
            rw [mapError_bind, consumeWhitespace_of ht]
            have hgap := le_consumeWhitespace prog (p + 3)
            exact ih _ buf (n + 1) (by omega) (by omega)
    · have hnone : prog[p]? = none := List.getElem?_eq_none (by omega)
      unfold read textMem
      rw [hnone]
      rfl

theorem getTypeList_stop (base q : Nat) (buf : Nat → Byte) :
    (getTypeList (textMem prog) prog.length q buf base).mapError Fault.stop
      = ToIr.getTypeList prog q buf base := by
  have ht := holds_textMem prog
  unfold getTypeList ToIr.getTypeList
  rw [mapError_bind, getChar_of ht, mapError_asRun (getChar_rejects prog q)]
  refine bind_congr fun ⟨cur, p⟩ => ?_
  dsimp only
  unfold require
  by_cases hc : cur = ch '('
  · rw [if_neg (not_not.2 hc), if_pos (decide_eq_true hc), mapError_bind, consumeWhitespace_of ht]
    refine bind_of_ok (a := ToIr.consumeWhitespace prog p) rfl ?_
    show _ = ToIr.getTypeListLoop prog base _ _ _ _ >>= _
    rw [mapError_bind, getTypeListLoop_stop_eq base (prog.length + 1) _ _ _ (Nat.succ_pos _) (by omega)]
    refine bind_congr fun ⟨p, buf, n⟩ => ?_
    dsimp only
    rw [mapError_bind, zeroCodes_stop]
    rfl
  · rw [if_pos hc, if_neg (by rw [decide_eq_false hc]; decide)]
    rfl

theorem parseInstr_stop {s : ParseState} (hs : s.place ≤ prog.length) :
    (parseInstr (textMem prog) prog.length s).mapError Fault.stop = ToIr.parseInstr prog s := by
  have ht := holds_textMem prog
  unfold parseInstr ToIr.parseInstr
  rw [mapError_bind, getNextInstrToken_of ht hs]
  refine bind_of_ok (a := ToIr.getNextInstrToken prog s.place) rfl ?_
  cases ToIr.getNextInstrToken prog s.place with
  | none => rfl
  | some r =>
    dsimp only
    cases (Token.ofByte (BitVec.ofNat 8 r.1)).map Token.operand with
    | none => rfl
    | some op =>
      cases op with
      | none => rfl
      | int =>
        dsimp only
        rw [mapError_bind, consumeWhitespace_of ht]
        refine bind_of_ok (a := ToIr.consumeWhitespace prog r.2) rfl ?_
        rw [mapError_bind, getInt_of ht, mapError_asRun (getInt_rejects prog _)]
        rfl
      | types =>
        dsimp only
        rw [mapError_bind, consumeWhitespace_of ht]
        refine bind_of_ok (a := ToIr.consumeWhitespace prog r.2) rfl ?_
        rw [mapError_bind, getTypeList_stop]
        refine bind_congr fun ⟨p, buf, n⟩ => ?_
        dsimp only
        rw [mapError_bind, consumeWhitespace_of ht]
        refine bind_of_ok (a := ToIr.consumeWhitespace prog p) rfl ?_
        rw [mapError_bind, getTypeList_stop]
        rfl

/-- Over the text alone, a run is the run of the list model. -/
theorem parseSume_stop (prog : List Byte) (buf : Nat → Byte) :
    (parseSume (textMem prog) prog.length buf).mapError Fault.stop = ToIr.parseSume prog buf := by
  have ht := holds_textMem prog
  have hloop : ∀ (fuel : Nat) (s : ParseState),
      (parseLoop (textMem prog) prog.length fuel s).mapError Fault.stop
        = ToIr.parseLoop prog fuel s := by
    intro fuel
    induction fuel with
    | zero => exact fun s => rfl
    | succ fuel ih =>
      intro s
      rw [parseLoop_succ ht]
      unfold ToIr.parseLoop
      dsimp only
      split
      · rfl
      · rename_i hlt
        rw [mapError_bind, parseInstr_stop (by dsimp only; omega)]
        exact bind_congr fun s => ih s
  exact hloop _ _

-- ======== the results

/-- Memory without gaps. -/
def total (m : Nat → Byte) : Mem := fun i => some (m i)

/-- The text ends in the list at `q`. -/
def Cut (prog : List Byte) (base q : Nat) : Prop :=
  ∃ n e, Stops prog base q n e ∧ prog.length ≤ e

/-- The codes of the list at `q` fill the buffer, and behind them stands
one more name, the closing parenthesis or the end of the text. -/
def TooLong (prog : List Byte) (base q : Nat) : Prop :=
  ∃ e, Stops prog base q (4 * (instrBufSz - base)) e
    ∧ (NameAt prog e ∨ prog[e]? = some (ch ')') ∨ prog.length ≤ e)

theorem InDecl.imp {P Q : Nat → Nat → Prop}
    (hPQ : ∀ base q, base ≤ instrBufSz → P base q → Q base q) (h : InDecl prog P p) :
    InDecl prog Q p := by
  obtain ⟨q, hq, hone | ⟨n, e, hstops, hc, hfit, htwo⟩⟩ := h
  · exact ⟨q, hq, .inl (hPQ 1 q (by decide) hone)⟩
  · exact ⟨q, hq, .inr ⟨n, e, hstops, hc, hfit, hPQ _ _ hfit htwo⟩⟩

/-- A fault of one kind, at whatever index. -/
theorem InDecl.exists {ι : Type} {P : ι → Nat → Nat → Prop}
    (h : InDecl prog (fun base q => ∃ i, P i base q) p) : ∃ i, InDecl prog (P i) p := by
  obtain ⟨q, hq, ⟨i, hone⟩ | ⟨n, e, hstops, hc, hfit, i, htwo⟩⟩ := h
  · exact ⟨i, q, hq, .inl hone⟩
  · exact ⟨i, q, hq, .inr ⟨n, e, hstops, hc, hfit, htwo⟩⟩

theorem cut_iff :
    Cut prog base q ↔ ∃ i, Faults (textMem prog) prog (.outside i) base q := by
  constructor
  · rintro ⟨n, e, hstops, he⟩
    refine ⟨e, n, e, hstops, ending_outside.2 ⟨?_, List.getElem?_eq_none he, rfl⟩⟩
    exact fun hname => by have := hname.1; omega
  · rintro ⟨i, n, e, hstops, hend⟩
    obtain ⟨-, hnone, -⟩ := ending_outside.1 hend
    exact ⟨n, e, hstops, List.getElem?_eq_none_iff.1 hnone⟩

/-- The assembler reads its text only, and gives the same result whatever
stands behind it, exactly when it does not come to a declaration that
the text ends in. -/
theorem assembler_reads_inside_iff (prog : List Byte) (buf : Nat → Byte) :
    ((∀ i, parseSume (textMem prog) prog.length buf ≠ .error (.outside i))
      ∧ ∀ m m' : Nat → Byte, Holds (total m) prog → Holds (total m') prog →
        parseSume (total m) prog.length buf = parseSume (total m') prog.length buf)
    ↔ ∀ s, Comes (textMem prog) prog.length buf s → s.place < prog.length →
        ¬ InDecl prog (Cut prog) s.place := by
  have ht := holds_textMem prog
  constructor
  · rintro ⟨hinside, -⟩ s hs hlt hcut
    obtain ⟨i, hfault⟩ := InDecl.exists (hcut.imp fun base q _ => cut_iff.1)
    refine hinside i ((parseSume_fault ht).2 ⟨s, hs, hlt, ?_⟩)
    exact (parseInstr_fault ht (by simp) (Nat.le_of_lt hlt)).2 hfault
  · intro hcut
    have hinside : ∀ i, parseSume (textMem prog) prog.length buf ≠ .error (.outside i) := by
      intro i hout
      obtain ⟨s, hs, hlt, hrun⟩ := (parseSume_fault ht).1 hout
      have hfault := (parseInstr_fault ht (by simp) (Nat.le_of_lt hlt)).1 hrun
      exact hcut s hs hlt (hfault.imp fun base q _ hf => cut_iff.2 ⟨i, hf⟩)
    have hsame : ∀ m : Nat → Byte, Holds (total m) prog →
        parseSume (total m) prog.length buf = parseSume (textMem prog) prog.length buf := by
      intro m h
      rcases parseSume_agree h with ⟨i, hout⟩ | heq
      · exact absurd hout (hinside i)
      · exact heq
    exact ⟨hinside, fun m m' h h' => (hsame m h).trans (hsame m' h').symm⟩

/-- A program that ends behind the parenthesis of its second list: the
assembler takes the next one from the memory behind. -/
theorem assembler_reads_behind :
    parseSume (textMem (chars "v.declfn ()(")) 12 (fun _ => 0) = .error (.outside 12)
      ∧ parseSume (total fun i => (chars "v.declfn ()(").getD i (ch ')')) 12 (fun _ => 0)
        = .ok [0x31, 0, 0]
      ∧ parseSume (total fun i => (chars "v.declfn ()(").getD i (ch ' ')) 12 (fun _ => 0)
        = .error .reject := by
  refine ⟨?_, ?_, ?_⟩ <;> decide +kernel

/-- For a list that starts inside the buffer, a write behind it is a list
that is too long. -/
theorem tooLong_of_faults (h : Holds mem prog) (hbase : base ≤ instrBufSz)
    (hf : Faults mem prog (.overflow i) base q) : TooLong prog base q := by
  obtain ⟨n, e, hstops, hend⟩ := hf
  obtain ⟨hwhy, -⟩ := ending_overflow.1 hend
  have hle := hstops.2.2.1
  rcases hwhy with hname | ⟨hc, hover⟩
  · have hn := hstops.2.2.2 hname
    rw [hn] at hstops
    exact ⟨e, hstops, .inl hname⟩
  · have hn : n = 4 * (instrBufSz - base) := by omega
    rw [hn] at hstops
    refine ⟨e, hstops, ?_⟩
    by_cases he : e < prog.length
    · exact .inr (.inl (by rw [← h e he, hc]))
    · exact .inr (.inr (by omega))

/-- The text, with nothing but closing parentheses behind it. -/
def closing (prog : List Byte) : Nat → Byte := fun i => prog.getD i (ch ')')

theorem holds_closing (prog : List Byte) : Holds (total (closing prog)) prog := by
  intro i hi
  unfold total closing
  rw [List.getD_eq_getElem?_getD, List.getElem?_eq_getElem hi]
  rfl

theorem faults_of_tooLong (h : TooLong prog base q) (hbase : base ≤ instrBufSz) :
    ∃ i, Faults (total (closing prog)) prog (.overflow i) base q := by
  obtain ⟨e, hstops, hwhy⟩ := h
  refine ⟨_, _, e, hstops, ending_overflow.2 ⟨?_, rfl⟩⟩
  have hclosing : total (closing prog) e = some (prog.getD e (ch ')')) := rfl
  rcases hwhy with hname | hc | he
  · exact .inl hname
  · refine .inr ⟨?_, by omega⟩
    rw [hclosing, List.getD_eq_getElem?_getD, hc]
    rfl
  · refine .inr ⟨?_, by omega⟩
    rw [hclosing, List.getD_eq_getElem?_getD, List.getElem?_eq_none he]
    rfl

/-- The assembler writes inside `instr_buf`, whatever stands behind the
text, exactly when it does not come to a declaration with a list that is
too long for what is left of the buffer. -/
theorem instr_buf_bounded_iff (prog : List Byte) (buf : Nat → Byte) :
    (∀ m : Nat → Byte, Holds (total m) prog →
      ∀ i, parseSume (total m) prog.length buf ≠ .error (.overflow i))
    ↔ ∀ s, Comes (textMem prog) prog.length buf s → s.place < prog.length →
        ¬ InDecl prog (TooLong prog) s.place := by
  constructor
  · intro hbound s hs hlt hlong
    have h := holds_closing prog
    obtain ⟨i, hfault⟩ := InDecl.exists
      (hlong.imp fun base q hbase htoo => faults_of_tooLong htoo hbase)
    refine hbound _ h i ((parseSume_fault h).2 ⟨s, (comes_text h hlt).2 hs, hlt, ?_⟩)
    exact (parseInstr_fault h (by simp) (Nat.le_of_lt hlt)).2 hfault
  · intro hlong m h i hover
    obtain ⟨s, hs, hlt, hrun⟩ := (parseSume_fault h).1 hover
    have hfault := (parseInstr_fault h (by simp) (Nat.le_of_lt hlt)).1 hrun
    exact hlong s ((comes_text h hlt).1 hs) hlt
      (hfault.imp fun base q hbase hf => tooLong_of_faults h hbase hf)

-- -------- a list that overflows

theorem stands_ints (n : Nat) (rest : List Byte) :
    Stands ((List.replicate n (chars "int")).flatten ++ ch ')' :: rest) := by
  intro c hc
  cases n with
  | zero => cases hc; decide
  | succ n => cases hc; decide

theorem typesFrom_ints (n : Nat) : ∀ {p : Nat} {rest : List Byte},
      prog.drop p = (List.replicate n (chars "int")).flatten ++ ch ')' :: rest →
      TypesFrom prog p n (p + 3 * n) := by
  induction n with
  | zero => exact fun _ => .nil
  | succ n ih =>
    intro p rest hdrop
    rw [List.replicate_succ, List.flatten_cons, List.append_assoc] at hdrop
    have hnext : prog.drop (p + 3) = _ := drop_append hdrop
    have hgap := consumeWhitespace_gap _ .nil hnext (stands_ints n rest)
    have hlen := length_of_drop hnext
    rw [List.length_append, List.length_cons] at hlen
    have hname : NameAt prog p := by
      refine ⟨by omega, ?_⟩
      rw [typeAt_word (.inl ⟨rfl, rfl⟩) hdrop]
      rfl
    have htypes := ih hnext
    rw [show p + 3 + 3 * n = p + 3 * (n + 1) by omega] at htypes
    refine .cons hname ?_
    rw [hgap]
    exact htypes

/-- A declaration with 396 parameters. -/
def manyParams : List Byte :=
  chars "v.declfn (" ++ ((List.replicate 396 (chars "int")).flatten ++ chars ")()")

theorem instr_buf_overflow :
    parseSume (total (closing manyParams)) manyParams.length (fun _ => 0)
      = .error (.overflow 100) := by
  have h := holds_closing manyParams
  have hstart : ToIr.consumeWhitespace manyParams 0 = 0 :=
    consumeWhitespace_gap manyParams .nil rfl (by intro c hc; cases hc; decide)
  have hlist : ToIr.consumeWhitespace manyParams 8 = 9 :=
    consumeWhitespace_gap (g := chars " ") _ (.ws rfl .nil) rfl (by intro c hc; cases hc; decide)
  have hbody : ToIr.consumeWhitespace manyParams 10 = 10 :=
    consumeWhitespace_gap _ .nil rfl (stands_ints 396 (chars "()"))
  have htypes : TypesFrom manyParams 10 396 1198 := typesFrom_ints 396 rfl
  have hpart : Parted (manyParams.drop 8) := by
    intro c hc
    cases hc
    decide
  have hdecl : DeclAt manyParams 0 9 :=
    ⟨_, _, Sume.getNextInstrToken_of (t := .vDeclfn) rfl hpart, rfl, hlist.symm⟩
  have hstops : Stops manyParams 1 9 396 1198 := by
    refine ⟨rfl, ?_, by decide, fun _ => rfl⟩
    rw [hbody]
    exact htypes
  have hpos : 0 < manyParams.length := List.length_pos_iff.2 nofun
  refine (parseSume_fault h).2 ⟨⟨0, _, _⟩, .start (by rw [consumeWhitespace_of h, hstart]),
    hpos, ?_⟩
  refine (parseInstr_fault h (by simp) (Nat.zero_le _)).2 ⟨9, hdecl, .inl ⟨396, 1198, hstops, ?_⟩⟩
  refine ending_overflow.2 ⟨.inr ⟨?_, by decide⟩, rfl⟩
  have hclose : manyParams[10 + 1188]? = some (ch ')') := by
    have hdrop : manyParams.drop 10
        = (List.replicate 396 (chars "int")).flatten ++ chars ")()" := rfl
    have hlen : (List.replicate 396 (chars "int")).flatten.length = 1188 := by
      rw [List.length_flatten, List.map_replicate, List.sum_replicate]
      rfl
    rw [getElem?_of_drop hdrop, List.getElem?_append_right (Nat.le_of_eq hlen), hlen]
    rfl
  unfold total closing
  rw [List.getD_eq_getElem?_getD, hclose]
  rfl

end Xv6Sume32.Sume.Reader
