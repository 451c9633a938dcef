/-
The assembler on every way to write a program.

The scanners share one cursor, so each has one lemma of the same form:
where the text from `place` on (`prog.drop place`) starts with what the
scanner is for, it returns that and leaves the cursor in front of the
rest. `get_int` takes the character behind its numeral along, which is
whitespace, and a text that starts with whitespace renders the same
program without it (`Renders.tail`).

# Mnemonics

Some entries of the table start with others. `is_prefix` looks at the
character behind, and no entry has a separator in it, so at most one
entry stands at a place and the order of the table does not matter
(`findToken_entry`).

# The buffer

A type list is written code by code over old contents. `Codes` follows
the codes that are already right; when the last byte is complete they
determine all of it (`byte_of_codes`).
-/
import Xv6Sume32.Sume.Syntax

namespace Xv6Sume32.Sume

open Lib ToIr

variable {prog : List Byte}

variable {c : Byte} {body g text m cs num : List Byte} {w : Word} {r : Radix} {v i : Nat}
    {vs : List Nat} {tys : List Ty} {ts : List Instr}

-- ======== the cursor

section Cursor

variable {p : Nat} {a b : List Byte}

theorem getElem?_of_drop (h : prog.drop p = a) (k : Nat) : prog[p + k]? = a[k]? := by
  rw [← h, List.getElem?_drop]

theorem head_of_drop (h : prog.drop p = c :: a) : prog[p]? = some c :=
  getElem?_of_drop h 0

theorem drop_append (h : prog.drop p = a ++ b) : prog.drop (p + a.length) = b := by
  rw [← List.drop_drop, h, List.drop_left]

theorem drop_cons (h : prog.drop p = c :: a) : prog.drop (p + 1) = a :=
  drop_append (a := [c]) h

theorem length_of_drop (h : prog.drop p = a) : a.length = prog.length - p := by
  rw [← h, List.length_drop]

theorem getChar_of_drop (h : prog.drop p = c :: a) : getChar prog p = .ok (c, p + 1) := by
  unfold getChar
  rw [head_of_drop h]

end Cursor

-- ======== gaps

/-- A text that starts with neither whitespace nor a comment. -/
def Stands (text : List Byte) : Prop :=
  ∀ c, text.head? = some c → c ≠ ch ';' ∧ isWhitespace c = false

theorem getLineLoop_of (rest : List Byte) (hb : ch '\n' ∉ body)
    (hr : ∀ c, rest.head? = some c → c = ch '\n') :
    ∀ {fuel p : Nat}, prog.drop p = body ++ rest → body.length ≤ fuel →
      getLineLoop prog fuel p = p + body.length := by
  induction body with
  | nil =>
    intro fuel p h _
    cases fuel with
    | zero => rfl
    | succ fuel =>
      unfold getLineLoop
      cases rest with
      | nil =>
        rw [show prog[p]? = none from getElem?_of_drop h 0]
        rfl
      | cons c rest =>
        rw [head_of_drop h]
        dsimp only
        rw [if_neg (not_not.2 (hr c rfl))]
        rfl
  | cons c body ih =>
    intro fuel p h hf
    obtain ⟨hc, hb⟩ := not_or.1 (fun h => hb (List.mem_cons.2 h))
    cases fuel with
    | zero => cases hf
    | succ fuel =>
      unfold getLineLoop
      rw [head_of_drop h]
      dsimp only
      rw [if_pos (Ne.symm hc), ih hb (drop_cons h) (Nat.le_of_succ_le_succ hf),
        List.length_cons]
      omega

/-- The loop of `consume_whitespace` goes over a gap. -/
theorem consumeLoop_gap (hg : Gap g) :
    ∀ (fuel : Nat) {p : Nat} {rest : List Byte}, prog.drop p = g ++ rest →
      g.length ≤ fuel → ∃ fuel', fuel ≤ fuel' + g.length
        ∧ consumeLoop prog fuel p = consumeLoop prog fuel' (p + g.length) := by
  induction hg with
  | nil => exact fun fuel _ _ _ _ => ⟨fuel, Nat.le_refl _, rfl⟩
  | @ws c g hc hg ih =>
    intro fuel p rest h hf
    cases fuel with
    | zero => cases hf
    | succ fuel =>
      obtain ⟨fuel', hle, heq⟩ := ih fuel (drop_cons h) (Nat.le_of_succ_le_succ hf)
      refine ⟨fuel', by rw [List.length_cons]; omega, ?_⟩
      have hne : c ≠ ch ';' := by
        rintro rfl
        revert hc
        decide
      rw [consumeLoop, head_of_drop h]
      dsimp only
      rw [if_neg hne, if_pos hc, heq, List.length_cons, Nat.add_right_comm, Nat.add_assoc]
  | @comment body g hb hg ih =>
    intro fuel p rest h hf
    have hlen : (ch ';' :: (body ++ ch '\n' :: g)).length = body.length + g.length + 2 := by
      simp only [List.length_cons, List.length_append]
      omega
    rw [hlen] at hf ⊢
    cases fuel with
    | zero => omega
    | succ fuel =>
      have h1 : prog.drop (p + 1) = body ++ (ch '\n' :: (g ++ rest)) := by
        rw [drop_cons (a := body ++ ch '\n' :: g ++ rest) h, List.append_assoc,
          List.cons_append]
      have htot := length_of_drop h1
      have hline : getLine prog (p + 1) = p + 1 + body.length + 1 := by
        unfold getLine
        rw [getLineLoop_of _ hb (fun c hc => by cases hc; rfl) h1 (by
          rw [List.length_append] at htot
          omega)]
      have h2 : prog.drop (p + 1 + body.length + 1) = g ++ rest := drop_cons (drop_append h1)
      obtain ⟨fuel', hle, heq⟩ := ih fuel h2 (by omega)
      refine ⟨fuel', by omega, ?_⟩
      rw [consumeLoop, head_of_drop h]
      dsimp only
      rw [if_pos rfl, hline, heq]
      congr 1
      omega

theorem consumeLoop_stands {rest : List Byte} {p : Nat} (h : prog.drop p = rest)
    (hs : Stands rest) (fuel : Nat) : consumeLoop prog fuel p = p := by
  cases fuel with
  | zero => rfl
  | succ fuel =>
    unfold consumeLoop
    cases rest with
    | nil => rw [show prog[p]? = none from getElem?_of_drop h 0]
    | cons c rest =>
      obtain ⟨h1, h2⟩ := hs c rfl
      rw [head_of_drop h]
      dsimp only
      rw [if_neg h1, h2]
      rfl

/-- `consume_whitespace` stops behind a gap. -/
theorem consumeWhitespace_gap (rest : List Byte) {p : Nat} (hg : Gap g)
    (h : prog.drop p = g ++ rest) (hs : Stands rest) : consumeWhitespace prog p = p + g.length := by
  have hlen := length_of_drop h
  rw [List.length_append] at hlen
  obtain ⟨fuel', -, heq⟩ := consumeLoop_gap hg prog.length h (by omega)
  unfold consumeWhitespace
  rw [heq, consumeLoop_stands (drop_append h) hs]

/-- Behind the last instruction it comes to the end of the text. -/
theorem consumeWhitespace_end {p : Nat} (ht : EndGap text)
    (h : prog.drop p = text) : prog.length ≤ consumeWhitespace prog p := by
  have hlen := length_of_drop h
  rcases ht with hg | ⟨g, body, hg, hb, rfl⟩
  · rw [consumeWhitespace_gap [] hg (by rw [List.append_nil]; exact h) (fun c hc => by cases hc)]
    omega
  · rw [List.length_append, List.length_cons] at hlen
    obtain ⟨fuel', hle, heq⟩ := consumeLoop_gap hg prog.length h (by omega)
    have h1 := drop_append h
    unfold consumeWhitespace
    rw [heq]
    cases fuel' with
    | zero => omega
    | succ fuel' =>
      have hline : getLine prog (p + g.length + 1) = p + g.length + 1 + body.length + 1 := by
        unfold getLine
        rw [getLineLoop_of [] hb (fun c hc => by cases hc)
          (by rw [List.append_nil]; exact drop_cons h1) (by omega)]
      have hend : prog.drop (p + g.length + 1 + body.length + 1) = [] := by
        rw [List.drop_eq_nil_iff]
        omega
      rw [consumeLoop, head_of_drop h1]
      dsimp only
      rw [if_pos rfl, hline, consumeLoop_stands hend (fun c hc => by cases hc)]
      omega

theorem Gap.parted {rest : List Byte} (hg : Gap g) (hne : g ≠ []) : Parted (g ++ rest) := by
  intro c hc
  cases hg with
  | nil => exact absurd rfl hne
  | ws hw _ =>
    cases hc
    exact Or.inr hw
  | comment _ _ =>
    cases hc
    exact Or.inl rfl

theorem Gap.tail (hg : Gap (c :: g)) (hc : isWhitespace c = true) : Gap g := by
  cases hg with
  | ws _ hg => exact hg
  | comment _ _ => exact absurd hc (by decide)

-- ======== mnemonics

theorem isPrefix_iff {w : List Byte} :
    isPrefix m w = true ↔ ∃ rest, w = m ++ rest ∧ Parted rest := by
  induction m generalizing w with
  | nil =>
    cases w with
    | nil => exact ⟨fun _ => ⟨[], rfl, fun c hc => by cases hc⟩, fun _ => rfl⟩
    | cons c cs =>
      unfold isPrefix
      rw [Bool.or_eq_true, beq_iff_eq]
      refine ⟨fun h => ⟨c :: cs, rfl, fun d hd => by cases hd; exact h⟩, ?_⟩
      rintro ⟨rest, hrest, hp⟩
      exact hp c (by rw [← List.nil_append rest, ← hrest]; rfl)
  | cons a m ih =>
    cases w with
    | nil =>
      refine ⟨fun h => (by cases h), ?_⟩
      rintro ⟨rest, hrest, -⟩
      cases hrest
    | cons c cs =>
      unfold isPrefix
      rw [Bool.and_eq_true, beq_iff_eq, ih]
      constructor
      · rintro ⟨rfl, rest, rfl, hp⟩
        exact ⟨rest, rfl, hp⟩
      · rintro ⟨rest, hrest, hp⟩
        obtain ⟨rfl, rfl⟩ := List.cons.inj hrest
        exact ⟨rfl, rest, rfl, hp⟩

/-- A character of a word. -/
def solid (c : Byte) : Bool := !(c == ch ';' || isWhitespace c)

theorem solid_eq_false_iff : solid c = false ↔ c = ch ';' ∨ isWhitespace c = true := by
  unfold solid
  rw [Bool.not_eq_false', Bool.or_eq_true, beq_iff_eq]

/-- The word a text starts with. -/
def firstWord (text : List Byte) : List Byte := text.takeWhile solid

theorem firstWord_append (hm : m.all solid = true) (hp : Parted text) :
    firstWord (m ++ text) = m := by
  unfold firstWord
  rw [List.takeWhile_append_of_pos (List.all_eq_true.1 hm)]
  cases text with
  | nil => exact List.append_nil m
  | cons c text =>
    rw [List.takeWhile_cons_of_neg, List.append_nil]
    rw [solid_eq_false_iff.2 (hp c rfl)]
    exact Bool.false_ne_true

theorem parted_dropWhile (text : List Byte) : Parted (text.dropWhile solid) := by
  intro c hc
  have := List.head?_dropWhile_not solid text
  rw [hc] at this
  exact solid_eq_false_iff.1 this

/-- `is_prefix` asks whether the mnemonic is the whole first word. -/
theorem isPrefix_iff_firstWord (hm : m.all solid = true) :
    isPrefix m text = true ↔ firstWord text = m := by
  rw [isPrefix_iff]
  constructor
  · rintro ⟨rest, rfl, hp⟩
    exact firstWord_append hm hp
  · rintro rfl
    exact ⟨_, List.takeWhile_append_dropWhile.symm, parted_dropWhile text⟩

/-- The search of the table is a search for the first word. -/
theorem findToken_eq {ss : List String} (hs : ∀ s ∈ ss, (chars s).all solid = true) (i : Nat) :
    findToken text ss i = ((ss.map chars).idxOf? (firstWord text)).map fun k =>
      (i + k, (firstWord text).length) := by
  induction ss generalizing i with
  | nil => rfl
  | cons s ss ih =>
    unfold findToken
    rw [List.map_cons, List.idxOf?_cons]
    by_cases hw : firstWord text = chars s
    · rw [if_pos ((isPrefix_iff_firstWord (hs s List.mem_cons_self)).2 hw), hw,
        if_pos (beq_self_eq_true _)]
      rfl
    · rw [if_neg (fun h => hw ((isPrefix_iff_firstWord (hs s List.mem_cons_self)).1 h)),
        if_neg (fun h => hw (beq_iff_eq.1 h).symm),
        ih (fun s h => hs s (List.mem_cons_of_mem _ h)), Option.map_map]
      congr 1
      funext k
      exact congrArg (·, _) (Nat.add_right_comm i 1 k)

theorem idxOf?_eq_some_of_nodup {l : List (List Byte)} (hl : l.Nodup) {n : Nat} :
    l.idxOf? m = some n ↔ l[n]? = some m := by
  rw [List.idxOf?_eq_some_iff, List.getElem?_eq_some_iff]
  constructor
  · rintro ⟨hn, hm, -⟩
    exact ⟨hn, hm⟩
  · rintro ⟨hn, rfl⟩
    exact ⟨hn, rfl, fun j hj he => absurd (hl.getElem_inj_iff.1 he) (Nat.ne_of_lt hj)⟩

theorem mnemonics_nodup : (instrs.map chars).Nodup := by decide +kernel

theorem mnemonics_solid : (instrs.map chars).all (fun m => m.all solid) = true := by
  decide +kernel

theorem instrs_solid (s : String) (hs : s ∈ instrs) : (chars s).all solid = true :=
  List.all_eq_true.1 mnemonics_solid _ (List.mem_map_of_mem hs)

theorem mnemonics_nonempty : (instrs.map chars).all (fun m => !m.isEmpty) = true := by
  decide +kernel

theorem ctorIdx_lt (t : Token) : t.ctorIdx < instrs.length := by
  cases t <;> decide

theorem mnemonic_getElem (t : Token) : (instrs.map chars)[t.ctorIdx]? = some (mnemonic t) := by
  unfold mnemonic
  rw [List.getElem?_map, List.getD_eq_getElem?_getD, List.getElem?_eq_getElem (ctorIdx_lt t)]
  rfl

theorem mnemonic_mem (t : Token) : mnemonic t ∈ instrs.map chars :=
  List.mem_of_getElem? (mnemonic_getElem t)

theorem mnemonic_solid (t : Token) : (mnemonic t).all solid = true :=
  List.all_eq_true.1 mnemonics_solid _ (mnemonic_mem t)

theorem mnemonic_ne_nil (t : Token) : mnemonic t ≠ [] := by
  have := List.all_eq_true.1 mnemonics_nonempty _ (mnemonic_mem t)
  rw [Bool.not_eq_true', List.isEmpty_eq_false_iff] at this
  exact this

/-- A mnemonic stands. -/
theorem stands_mnemonic (t : Token) (rest : List Byte) : Stands (mnemonic t ++ rest) := by
  intro c hc
  have hs := mnemonic_solid t
  cases hm : mnemonic t with
  | nil => exact absurd hm (mnemonic_ne_nil t)
  | cons d m =>
    rw [hm] at hc hs
    obtain rfl : d = c := Option.some.inj hc
    rw [List.all_cons, Bool.and_eq_true] at hs
    have hd := hs.1
    unfold solid at hd
    rw [Bool.not_eq_true', Bool.or_eq_false_iff] at hd
    exact ⟨fun h => by rw [h] at hd; exact absurd hd.1 (by decide), hd.2⟩

theorem getNextInstrToken_eq_some {p q : Nat} : getNextInstrToken prog p = some (i, q) ↔
    (instrs.map chars)[i]? = some (firstWord (prog.drop p)) ∧
      q = p + (firstWord (prog.drop p)).length := by
  unfold getNextInstrToken
  rw [findToken_eq instrs_solid, Option.map_map, ← idxOf?_eq_some_of_nodup mnemonics_nodup,
    Option.map_eq_some_iff]
  constructor
  · rintro ⟨k, hk, he⟩
    obtain ⟨rfl, rfl⟩ := Prod.mk.inj he
    exact ⟨hk.trans (congrArg some (Nat.zero_add k).symm), rfl⟩
  · rintro ⟨hk, rfl⟩
    exact ⟨i, hk, congrArg (·, _) (Nat.zero_add i)⟩

/-- `get_next_instr_token` finds the mnemonic that is there. -/
theorem getNextInstrToken_of {t : Token} {rest : List Byte} {p : Nat}
    (h : prog.drop p = mnemonic t ++ rest) (hr : Parted rest) :
    getNextInstrToken prog p = some (t.ctorIdx, p + (mnemonic t).length) := by
  have hw : firstWord (prog.drop p) = mnemonic t := by
    rw [h]
    exact firstWord_append (mnemonic_solid t) hr
  rw [getNextInstrToken_eq_some, hw]
  exact ⟨mnemonic_getElem t, rfl⟩

theorem getNextInstrToken_eq_none {p : Nat} : getNextInstrToken prog p = none ↔
    firstWord (prog.drop p) ∉ instrs.map chars := by
  unfold getNextInstrToken
  rw [findToken_eq instrs_solid, Option.map_map, Option.map_eq_none_iff, List.idxOf?_eq_none_iff]

/-- Whatever the order of the table, the search finds the entry that is
the first word. -/
theorem findToken_entry {ss : List String} (hperm : ss.Perm instrs) {s : String} :
    (findToken text ss 0).bind (fun r => ss[r.1]?) = some s ↔
      s ∈ instrs ∧ chars s = firstWord text := by
  have hnodup : (ss.map chars).Nodup := (hperm.map chars).nodup_iff.2 mnemonics_nodup
  rw [findToken_eq (fun s hs => instrs_solid s (hperm.mem_iff.1 hs)), Option.bind_map,
    Option.bind_eq_some_iff]
  constructor
  · rintro ⟨k, hk, hs⟩
    rw [Function.comp_apply, Nat.zero_add] at hs
    rw [idxOf?_eq_some_of_nodup hnodup, List.getElem?_map, hs] at hk
    exact ⟨hperm.mem_iff.1 (List.mem_of_getElem? hs), Option.some.inj hk⟩
  · rintro ⟨hs, hw⟩
    obtain ⟨k, hk⟩ := List.getElem?_of_mem (hperm.mem_iff.2 hs)
    refine ⟨k, (idxOf?_eq_some_of_nodup hnodup).2 ?_, ?_⟩
    · rw [List.getElem?_map, hk, ← hw]
      rfl
    · rw [Function.comp_apply, Nat.zero_add, hk]

/-- The number `get_next_instr_token` returns and the place it leaves
behind. -/
def instrTokenCall (prog : List Byte) (place : Nat) : Int × Nat :=
  match getNextInstrToken prog place with
  | some (i, place') => (i, place')
  | none => (-1, place)

/-- Recognition is exact, at most one entry of the table can match, and
the order of the table does not matter. -/
theorem getNextInstrToken_exact (prog : List Byte) (place : Nat) :
    (∀ (i : Nat) (s : String), instrs[i]? = some s →
      (instrTokenCall prog place = ((i : Int), place + (chars s).length) ↔
        firstWord (prog.drop place) = chars s)) ∧
    ((∀ s ∈ instrs, firstWord (prog.drop place) ≠ chars s) →
      instrTokenCall prog place = (-1, place)) ∧
    (∀ (i j : Nat) (s s' : String), instrs[i]? = some s → instrs[j]? = some s' →
      isPrefix (chars s) (prog.drop place) = true →
      isPrefix (chars s') (prog.drop place) = true → i = j) ∧
    ∀ ss : List String, ss.Perm instrs →
      (findToken (prog.drop place) ss 0).bind (fun r => ss[r.1]?) =
        (findToken (prog.drop place) instrs 0).bind fun r => instrs[r.1]? := by
  have hentry : ∀ {i : Nat} {s : String}, instrs[i]? = some s →
      (instrs.map chars)[i]? = some (chars s) := by
    intro i s hs
    rw [List.getElem?_map, hs]
    rfl
  refine ⟨fun i s hs => ⟨fun hcall => ?_, fun hw => ?_⟩, fun hno => ?_, ?_, fun ss hperm => ?_⟩
  · unfold instrTokenCall at hcall
    split at hcall
    · next i' place' htok =>
        obtain ⟨hi, -⟩ := Prod.mk.inj hcall
        obtain rfl : i' = i := Int.ofNat.inj hi
        exact Option.some.inj ((getNextInstrToken_eq_some.1 htok).1.symm.trans (hentry hs))
    · exact absurd (Prod.mk.inj hcall).1 (by omega)
  · unfold instrTokenCall
    rw [getNextInstrToken_eq_some.2 ⟨hw ▸ hentry hs, rfl⟩, hw]
  · unfold instrTokenCall
    rw [getNextInstrToken_eq_none.2 fun hmem => ?_]
    obtain ⟨s, hs, hw⟩ := List.mem_map.1 hmem
    exact hno s hs hw.symm
  · intro i j s s' hs hs' hp hp'
    rw [isPrefix_iff_firstWord (instrs_solid s (List.mem_of_getElem? hs))] at hp
    rw [isPrefix_iff_firstWord (instrs_solid s' (List.mem_of_getElem? hs'))] at hp'
    have hi := hp ▸ hentry hs
    have hj := hp' ▸ hentry hs'
    exact (List.getElem?_inj (List.getElem?_eq_some_iff.1 hi).1 mnemonics_nodup).1
      (hi.trans hj.symm)
  · exact Option.ext fun s => (findToken_entry hperm).trans (findToken_entry (.refl _)).symm

theorem ofByte_toByte (t : Token) : Token.ofByte t.toByte = some t := by
  cases t <;> rfl

-- ======== numerals

section Numerals

variable {p : Nat} {rest : List Byte}

theorem charToInt_digit (h : IsDigit c v) : charToInt c = some (v : Int) := by
  rcases h with ⟨hv, rfl⟩ | ⟨hv, hv', rfl | rfl⟩ <;> interval_cases v <;> rfl

theorem digit_solid (h : IsDigit c v) : c ≠ ch ';' ∧ isWhitespace c = false := by
  rcases h with ⟨hv, rfl⟩ | ⟨hv, hv', rfl | rfl⟩ <;> interval_cases v <;> decide

/-- The rest behind a numeral, of which it takes the first character
along. -/
theorem getIntLoop_digits {radix : Nat} (hd : List.Forall₂ IsDigit cs vs) (hr : Spaced rest) :
    ∀ (fuel : Nat) {p : Nat} {w : Word}, (∀ v ∈ vs, v < radix) → prog.drop p = cs ++ rest →
      cs.length < fuel → ∃ q, getIntLoop prog radix fuel w p
          = .ok (vs.foldl (fun a v => a * BitVec.ofNat 32 radix + BitVec.ofNat 32 v) w, q)
        ∧ prog.drop q = rest.tail := by
  induction hd with
  | nil =>
    intro fuel p w _ h hf
    cases fuel with
    | zero => cases hf
    | succ fuel =>
      unfold getIntLoop
      cases rest with
      | nil =>
        rw [show prog[p]? = none from getElem?_of_drop h 0]
        exact ⟨p, rfl, h⟩
      | cons c rest =>
        rw [head_of_drop h]
        dsimp only
        rw [if_pos (hr c rfl)]
        exact ⟨p + 1, rfl, drop_cons h⟩
  | @cons c v cs vs hcv _ ih =>
    intro fuel p w hlt h hf
    cases fuel with
    | zero => cases hf
    | succ fuel =>
      obtain ⟨q, hq, hdrop⟩ := ih fuel (p := p + 1)
        (w := w * BitVec.ofNat 32 radix + BitVec.ofNat 32 v)
        (fun u hu => hlt u (List.mem_cons_of_mem _ hu)) (drop_cons h)
        (Nat.lt_of_succ_lt_succ hf)
      refine ⟨q, ?_, hdrop⟩
      have hv := hlt v List.mem_cons_self
      unfold getIntLoop
      rw [head_of_drop h]
      dsimp only
      rw [(digit_solid hcv).2, if_neg (by decide), charToInt_digit hcv]
      dsimp only
      rw [if_neg (by omega), BitVec.ofInt_natCast, hq]
      rfl

/-- Words wrap around as the value of the digits does. -/
theorem foldl_word (base : Nat) (vs : List Nat) (n : Nat) :
    vs.foldl (fun a v => a * BitVec.ofNat 32 base + BitVec.ofNat 32 v) (BitVec.ofNat 32 n)
      = BitVec.ofNat 32 (vs.foldl (fun a v => a * base + v) n) := by
  induction vs generalizing n with
  | nil => rfl
  | cons v vs ih =>
    rw [List.foldl_cons, List.foldl_cons, ← BitVec.ofNat_mul, ← BitVec.ofNat_add, ih]

/-- The first character of a numeral behind its sign. -/
theorem exists_first (h : IsDigit c v) (hv : v < r.base)
    (cs : List Byte) : ∃ a tail, r.mark ++ c :: cs = a :: tail ∧ a ≠ ch '-' ∧ a ≠ ch ';'
      ∧ isWhitespace a = false := by
  cases r with
  | dec =>
    refine ⟨c, cs, rfl, ?_, digit_solid h⟩
    rintro rfl
    have := charToInt_digit h
    rw [show charToInt (ch '-') = none from rfl] at this
    cases this
  | bin | oct | hex | hexH => exact ⟨_, _, rfl, by decide, by decide, by decide⟩

/-- `get_int` recognises the mark of the radix. -/
theorem getRadix_mark {a : Byte} {tail : List Byte}
    (hd : IsDigit c v) (hv : v < r.base) (ha : r.mark ++ c :: cs = a :: tail)
    (h : prog.drop p = a :: tail) :
    ∃ q, getRadix prog a (p + 1) = .ok (r.base, c, q) ∧ prog.drop q = cs := by
  have hnext := drop_cons h
  cases r with
  | dec =>
    obtain ⟨rfl, rfl⟩ := List.cons.inj ha
    refine ⟨p + 1, ?_, hnext⟩
    unfold getRadix
    rcases hd with ⟨hv, rfl⟩ | ⟨hv', -, -⟩
    · interval_cases v <;> rfl
    · have hv : v < 10 := hv
      omega
  | bin | oct | hex | hexH =>
    obtain ⟨rfl, rfl⟩ := List.cons.inj ha
    exact ⟨p + 1 + 1, by
      unfold getRadix
      rw [getChar_of_drop hnext]
      rfl, drop_cons hnext⟩

theorem getSign_neg {a : Byte} {tail : List Byte} (h : prog.drop p = ch '-' :: a :: tail) :
    getSign prog p = .ok (true, a, p + 1 + 1) := by
  refine bind_eq_ok.2 ⟨_, getChar_of_drop h, ?_⟩
  dsimp only
  rw [if_pos rfl, getChar_of_drop (drop_cons h)]
  rfl

theorem getSign_pos {a : Byte} {tail : List Byte} (ha : a ≠ ch '-')
    (h : prog.drop p = a :: tail) : getSign prog p = .ok (false, a, p + 1) := by
  refine bind_eq_ok.2 ⟨_, getChar_of_drop h, ?_⟩
  dsimp only
  rw [if_neg ha]

/-- `get_int` behind the sign. -/
theorem getInt_of_sign {neg : Bool} {a : Byte} {tail : List Byte} {q : Nat}
    (hsign : getSign prog p = .ok (neg, a, q + 1))
    (hdrop : prog.drop q = a :: tail) (ha : r.mark ++ cs ++ rest = a :: tail)
    (hne : vs ≠ []) (hd : List.Forall₂ IsDigit cs vs) (hv : ∀ v ∈ vs, v < r.base)
    (hr : Spaced rest) : ∃ q', ToIr.getInt prog p = .ok (BitVec.ofInt 32
        (if neg then -(digitsValue r.base vs : Int) else digitsValue r.base vs), q')
      ∧ prog.drop q' = rest.tail := by
  cases hd with
  | nil => exact absurd rfl hne
  | @cons c v cs vs hcv hd =>
    have hvlt := hv v List.mem_cons_self
    rw [List.append_assoc, List.cons_append] at ha
    obtain ⟨q1, hradix, hq1⟩ := getRadix_mark hcv hvlt ha hdrop
    have hlen : cs.length < prog.length := by
      have h1 := congrArg List.length ha
      have h2 := length_of_drop hdrop
      simp only [List.length_append, List.length_cons] at h1 h2
      omega
    obtain ⟨q', hloop, hq'⟩ := getIntLoop_digits hd hr prog.length
      (w := BitVec.ofNat 32 v) (fun u hu => hv u (List.mem_cons_of_mem _ hu)) hq1 hlen
    refine ⟨q', ?_, hq'⟩
    refine bind_eq_ok.2 ⟨_, hsign, bind_eq_ok.2 ⟨_, hradix, ?_⟩⟩
    dsimp only
    rw [charToInt_digit hcv]
    dsimp only
    rw [BitVec.ofInt_natCast, hloop, foldl_word]
    have hval : digitsValue r.base (v :: vs) = vs.foldl (fun a v => a * r.base + v) v := by
      unfold digitsValue
      rw [List.foldl_cons, Nat.zero_mul, Nat.zero_add]
    rw [hval]
    cases neg with
    | false =>
      show Except.ok (BitVec.ofNat 32 _, q') = _
      rw [if_neg (by decide), BitVec.ofInt_natCast]
    | true =>
      show Except.ok (-BitVec.ofNat 32 _, q') = _
      rw [if_pos rfl, BitVec.ofInt_neg, BitVec.ofInt_natCast]

/-- `get_int` reads a numeral. -/
theorem getInt_numeral (hn : Numeral num w) (h : prog.drop p = num ++ rest) (hr : Spaced rest) :
    ∃ q, ToIr.getInt prog p = .ok (w, q) ∧ prog.drop q = rest.tail := by
  obtain ⟨neg, r, cs, vs, hne, hd, hv, rfl, rfl⟩ := hn
  have hfirst : ∃ a tail, r.mark ++ cs ++ rest = a :: tail ∧ a ≠ ch '-' := by
    cases hd with
    | nil => exact absurd rfl hne
    | cons hcv _ =>
      obtain ⟨a, tail, ha, hminus, -⟩ := exists_first hcv (hv _ List.mem_cons_self) _
      exact ⟨a, tail ++ rest, by rw [ha, List.cons_append], hminus⟩
  obtain ⟨a, tail, ha, hminus⟩ := hfirst
  rw [List.append_assoc, ha] at h
  cases neg with
  | false => exact getInt_of_sign (getSign_pos hminus h) h ha hne hd hv hr
  | true => exact getInt_of_sign (getSign_neg h) (drop_cons h) ha hne hd hv hr

theorem Numeral.stands (hn : Numeral num w) : Stands (num ++ rest) := by
  obtain ⟨neg, r, cs, vs, hne, hd, hv, rfl, -⟩ := hn
  cases hd with
  | nil => exact absurd rfl hne
  | cons hcv _ =>
    obtain ⟨a, tail, ha, -, h1, h2⟩ := exists_first hcv (hv _ List.mem_cons_self) _
    intro c hc
    rw [ha] at hc
    cases neg with
    | false =>
      obtain rfl : a = c := Option.some.inj hc
      exact ⟨h1, h2⟩
    | true =>
      obtain rfl : ch '-' = c := Option.some.inj hc
      decide

end Numerals

-- ======== type lists

section TypeLists

/-- Code `pos` of the type list at index `base` of a buffer. -/
def codeAt (buf : Nat → Byte) (base pos : Nat) : Ty :=
  (buf (base + pos / 4) >>> (2 * (pos % 4))) &&& 3

/-- The codes written so far. -/
def Codes (buf : Nat → Byte) (base : Nat) (codes : List Ty) : Prop :=
  ∀ i t, codes[i]? = some t → codeAt buf base i = t

theorem code_high (t : Fin 4) (hi : 2 ≤ i) : (BitVec.ofNat 8 t.val).getLsbD i = false := by
  have hlt : t.val < 2 ^ i := t.isLt.trans_le (Nat.pow_le_pow_right Nat.two_pos hi)
  rw [BitVec.getLsbD_ofNat, Nat.testBit_lt_two_pow hlt, Bool.and_false]

theorem mask_bit : (3 : Byte).getLsbD i = decide (i < 2) := by
  by_cases h : i < 2
  · interval_cases i <;> decide
  · rw [decide_eq_false h]
    exact code_high 3 (Nat.le_of_not_lt h)

theorem code_set (b : Byte) (t : Fin 4) (o o' : Fin 4) :
    (((b &&& ~~~ ((3 : Byte) <<< (o.val * 2))) ||| (BitVec.ofNat 8 t.val <<< (o.val * 2)))
        >>> (2 * o'.val)) &&& 3
      = if o = o' then BitVec.ofNat 8 t.val else (b >>> (2 * o'.val)) &&& 3 := by
  apply BitVec.eq_of_getLsbD_eq
  intro i hi
  have ho' := o'.isLt
  rw [apply_ite (BitVec.getLsbD · i)]
  simp only [BitVec.getLsbD_and, BitVec.getLsbD_or, BitVec.getLsbD_ushiftRight,
    BitVec.getLsbD_shiftLeft, BitVec.getLsbD_not, mask_bit]
  by_cases h2 : i < 2
  · have h8 : 2 * o'.val + i < 8 := by omega
    by_cases h : o = o'
    · subst h
      have hge : ¬ 2 * o.val + i < o.val * 2 := by omega
      have hsub : 2 * o.val + i - o.val * 2 = i := by omega
      simp [h8, hge, hsub, h2]
    · -- the bits of another code are below the mask or above it
      have hne : o.val ≠ o'.val := fun he => h (Fin.ext he)
      by_cases hlt : 2 * o'.val + i < o.val * 2
      · simp [hlt, h2, h, h8]
      · have hge : 2 ≤ 2 * o'.val + i - o.val * 2 := by omega
        simp [code_high t hge, Nat.not_lt.2 hge, h2, h, h8]
  · simp [h2, code_high t (Nat.le_of_not_lt h2)]

variable {buf : Nat → Byte} {base : Nat} {codes : List Ty}

/-- A code written behind the others leaves them, and the bytes in front
of the list, as they are. -/
theorem setCode_ok (hc : Codes buf base codes) (hfit : base + codes.length / 4 < instrBufSz)
    (t : Fin 4) : ∃ buf', setCode buf base codes.length (BitVec.ofNat 8 t.val) = .ok buf'
      ∧ Codes buf' base (codes ++ [BitVec.ofNat 8 t.val]) ∧ ∀ j, j < base → buf' j = buf j := by
  refine ⟨_, bind_eq_ok.2 ⟨(), ?_, rfl⟩, fun i u hi => ?_, fun j hj => ?_⟩
  · rw [inRange_decide]
    exact hfit
  · unfold codeAt
    by_cases hbyte : base + i / 4 = base + codes.length / 4
    · -- another code of the same byte, or the new one
      have hset := code_set (buf (base + codes.length / 4)) t
        ⟨codes.length % 4, Nat.mod_lt _ (by decide)⟩ ⟨i % 4, Nat.mod_lt _ (by decide)⟩
      rw [hbyte, Function.update_self]
      refine hset.trans ?_
      by_cases hlast : i = codes.length
      · rw [hlast] at hi ⊢
        rw [if_pos rfl]
        rw [List.getElem?_append_right (Nat.le_refl _), Nat.sub_self] at hi
        exact Option.some.inj hi
      · have hlt : i < codes.length := by
          have := lt_length hi
          rw [List.length_append, List.length_singleton] at this
          omega
        rw [if_neg (fun he => hlast (by have := Fin.mk.inj he; omega))]
        rw [List.getElem?_append_left hlt] at hi
        have hold := hc i u hi
        unfold codeAt at hold
        rw [hbyte] at hold
        exact hold
    · have hlt : i < codes.length := by
        have := lt_length hi
        rw [List.length_append, List.length_singleton] at this
        rcases Nat.lt_or_ge i codes.length with h | h
        · exact h
        · exact absurd (by rw [show i = codes.length by omega]) hbyte
      rw [Function.update_of_ne hbyte]
      rw [List.getElem?_append_left hlt] at hi
      exact hc i u hi
  · exact Function.update_of_ne (by omega) _ _

theorem typeWord_cases {w : List Byte} {t : Ty} (h : TypeWord w t) :
    w.length = 3 ∧ (∃ f : Fin 4, t = BitVec.ofNat 8 f.val)
      ∧ ∃ c w', w = c :: w' ∧ c ≠ ch ')' ∧ c ≠ ch ';' ∧ isWhitespace c = false := by
  rcases h with ⟨rfl, rfl⟩ | ⟨rfl, rfl⟩
  · exact ⟨rfl, ⟨1, rfl⟩, _, _, rfl, by decide, by decide, by decide⟩
  · exact ⟨rfl, ⟨2, rfl⟩, _, _, rfl, by decide, by decide, by decide⟩

theorem typeAt_word {w rest : List Byte} {t : Ty} {p : Nat} (h : TypeWord w t)
    (hd : prog.drop p = w ++ rest) : typeAt prog p = some t := by
  have h0 := getElem?_of_drop hd 0
  have h1 := getElem?_of_drop hd 1
  have h2 := getElem?_of_drop hd 2
  unfold typeAt
  rw [show prog[p]? = prog[p + 0]? from rfl, h0, h1, h2]
  rcases h with ⟨rfl, rfl⟩ | ⟨rfl, rfl⟩
  · rfl
  · rfl

theorem TypeWords.stands {rest : List Byte} (h : TypeWords body tys) :
    Stands (body ++ ch ')' :: rest) := by
  intro c hc
  cases h with
  | nil =>
    obtain rfl : ch ')' = c := Option.some.inj hc
    decide
  | cons hw hg h =>
    obtain ⟨-, -, d, w', rfl, -, hsep⟩ := typeWord_cases hw
    obtain rfl : d = c := Option.some.inj hc
    exact hsep

/-- The loop of `get_type_list` stores one code for each name. -/
theorem getTypeListLoop_words (base : Nat) (hw : TypeWords body tys) :
    ∀ (fuel : Nat) {p : Nat} (buf : Nat → Byte) (codes : List Ty) {rest : List Byte},
      prog.drop p = body ++ ch ')' :: rest → body.length < fuel →
      base + (codes.length + tys.length) / 4 < instrBufSz → Codes buf base codes →
      ∃ buf', ToIr.getTypeListLoop prog base fuel p buf codes.length
          = .ok (p + body.length, buf', codes.length + tys.length)
        ∧ Codes buf' base (codes ++ tys) ∧ ∀ j, j < base → buf' j = buf j := by
  induction hw with
  | nil =>
    intro fuel p buf codes rest h hf _ hc
    cases fuel with
    | zero => cases hf
    | succ fuel =>
      refine ⟨buf, ?_, by rw [List.append_nil]; exact hc, fun _ _ => rfl⟩
      unfold ToIr.getTypeListLoop
      rw [head_of_drop h]
      rfl
  | @cons w t g text tys hw hg htext ih =>
    intro fuel p buf codes rest h hf hfit hc
    obtain ⟨hlen, ⟨f, rfl⟩, c, w', rfl, hclose, -⟩ := typeWord_cases hw
    have hd : prog.drop p = (c :: w') ++ (g ++ (text ++ ch ')' :: rest)) := by
      rw [h]
      simp only [List.append_assoc]
    have hnext := drop_append hd
    rw [hlen] at hnext
    have htot := length_of_drop h
    simp only [List.length_append, List.length_cons] at htot hlen hfit
    cases fuel with
    | zero => cases hf
    | succ fuel =>
      obtain ⟨buf1, hset, hc1, hlow1⟩ := setCode_ok hc (by
        have : codes.length / 4 ≤ (codes.length + (tys.length + 1)) / 4 :=
          Nat.div_le_div_right (by omega)
        omega) f
      have hplace : consumeWhitespace prog (p + 3) = p + 3 + g.length :=
        consumeWhitespace_gap _ hg hnext htext.stands
      obtain ⟨buf2, hloop, hc2, hlow2⟩ := ih fuel buf1 _ (drop_append hnext)
        (by simp only [List.length_append, List.length_cons] at hf; omega) (by
          rw [List.length_append, List.length_singleton, Nat.add_assoc,
            Nat.add_comm 1]
          exact hfit) hc1
      refine ⟨buf2, ?_, ?_, fun j hj => (hlow2 j hj).trans (hlow1 j hj)⟩
      · unfold ToIr.getTypeListLoop
        rw [head_of_drop hd]
        dsimp only
        rw [if_neg hclose, if_neg (by omega), typeAt_word hw hd]
        dsimp only
        rw [hset]
        show ToIr.getTypeListLoop prog base fuel (consumeWhitespace prog (p + 3)) buf1 _ = _
        rw [List.length_append, List.length_singleton] at hloop
        rw [hplace, hloop]
        congr 2
        · simp only [List.length_append, List.length_cons]
          omega
        · congr 1
          rw [List.length_cons]
          omega
      · rw [List.append_assoc] at hc2
        exact hc2

theorem zeroCodes_ok : ∀ {k : Nat} {buf : Nat → Byte} {codes : List Ty}, Codes buf base codes →
      (∀ n, n < codes.length + k → base + n / 4 < instrBufSz) →
      ∃ buf', zeroCodes base k codes.length buf = .ok buf'
        ∧ Codes buf' base (codes ++ List.replicate k 0) ∧ ∀ j, j < base → buf' j = buf j := by
  intro k
  induction k with
  | zero =>
    intro buf codes hc _
    exact ⟨buf, rfl, by rw [List.replicate_zero, List.append_nil]; exact hc, fun _ _ => rfl⟩
  | succ k ih =>
    intro buf codes hc hfit
    obtain ⟨buf1, hset, hc1, hlow1⟩ := setCode_ok hc (hfit _ (by omega)) 0
    obtain ⟨buf2, hz, hc2, hlow2⟩ := ih hc1 fun n hn => hfit n (by
      rw [List.length_append, List.length_singleton] at hn
      omega)
    refine ⟨buf2, bind_eq_ok.2 ⟨buf1, hset, ?_⟩, ?_, fun j hj => (hlow2 j hj).trans (hlow1 j hj)⟩
    · rw [List.length_append, List.length_singleton] at hz
      exact hz
    · rw [List.append_assoc] at hc2
      exact hc2

/-- Four codes make a byte. -/
theorem byte_of_codes (b : Byte) :
    b = codeByte (b >>> 0 &&& 3) (b >>> 2 &&& 3) (b >>> 4 &&& 3) (b >>> 6 &&& 3) := by
  revert b
  decide +kernel

/-- The bytes of a list all of whose codes are written. -/
theorem Codes.packByte {k j : Nat} (hc : Codes buf base (tys ++ List.replicate k 0))
    (hj : 4 * j + 3 < tys.length + k) : buf (base + j) = Sume.packByte tys j := by
  have hcode : ∀ o, o < 4 → (buf (base + j) >>> (2 * o)) &&& 3 = tys.getD (4 * j + o) 0 := by
    intro o ho
    have hget : (tys ++ List.replicate k (0 : Ty))[4 * j + o]? = some (tys.getD (4 * j + o) 0) := by
      rw [List.getD_eq_getElem?_getD]
      rcases Nat.lt_or_ge (4 * j + o) tys.length with hlt | hge
      · rw [List.getElem?_append_left hlt, List.getElem?_eq_getElem hlt]
        rfl
      · rw [List.getElem?_append_right hge, List.getElem?_replicate, if_pos (by omega),
          List.getElem?_eq_none hge]
        rfl
    have := hc _ _ hget
    unfold codeAt at this
    rw [show (4 * j + o) / 4 = j by omega, show (4 * j + o) % 4 = o by omega] at this
    exact this
  have hb := byte_of_codes (buf (base + j))
  rw [hcode 0 (by decide), hcode 1 (by decide), hcode 2 (by decide), hcode 3 (by decide)] at hb
  exact hb

/-- `get_type_list` packs a type list. -/
theorem getTypeList_list (base : Nat) {rest : List Byte} {p : Nat}
    (hl : TypeList text tys) (h : prog.drop p = text ++ rest)
    (hfit : base + (tys.length / 4 + 1) ≤ instrBufSz) (buf : Nat → Byte) :
    ∃ buf', ToIr.getTypeList prog p buf base = .ok (p + text.length, buf', tys.length / 4 + 1)
      ∧ (∀ j, j < tys.length / 4 + 1 → buf' (base + j) = Sume.packByte tys j)
      ∧ ∀ j, j < base → buf' j = buf j := by
  obtain ⟨g, body, hg, hw, rfl⟩ := hl
  have hd : prog.drop p = ch '(' :: (g ++ (body ++ ch ')' :: rest)) := by
    rw [h]
    simp only [List.append_assoc, List.cons_append, List.nil_append]
  have hbody := drop_append (drop_cons hd)
  have hplace : consumeWhitespace prog (p + 1) = p + 1 + g.length :=
    consumeWhitespace_gap _ hg (drop_cons hd) hw.stands
  have hlen := length_of_drop hbody
  rw [List.length_append, List.length_cons] at hlen
  obtain ⟨buf1, hloop, hc1, hlow1⟩ := getTypeListLoop_words base hw (prog.length + 1) buf []
    hbody (by omega) (by rw [List.length_nil, Nat.zero_add]; omega) (fun i t hi => by cases hi)
  rw [List.length_nil, Nat.zero_add] at hloop
  rw [List.nil_append] at hc1
  obtain ⟨buf2, hz, hc2, hlow2⟩ := zeroCodes_ok (k := 4 * (tys.length / 4 + 1) - tys.length)
    hc1 fun n hn => by omega
  refine ⟨buf2, bind_eq_ok.2 ⟨_, getChar_of_drop hd, bind_eq_ok.2 ⟨(), ?_,
    bind_eq_ok.2 ⟨(p + 1 + g.length + body.length, buf1, tys.length), ?_,
      bind_eq_ok.2 ⟨buf2, hz, ?_⟩⟩⟩⟩, fun j hj => hc2.packByte (by omega),
    fun j hj => (hlow2 j hj).trans (hlow1 j hj)⟩
  · rw [require_decide]
  · rw [hplace]
    exact hloop
  · congr 2
    simp only [List.length_cons, List.length_append, List.length_nil]
    omega

theorem TypeList.stands {rest : List Byte} (h : TypeList text tys) : Stands (text ++ rest) := by
  obtain ⟨g, body, -, -, rfl⟩ := h
  intro c hc
  obtain rfl : ch '(' = c := Option.some.inj hc
  decide

end TypeLists

-- ======== programs

/-- The whitespace in front of a program can be left out. -/
theorem Renders.tail (h : Renders ts text) (hs : Spaced text) : Renders ts text.tail := by
  cases text with
  | nil => exact h
  | cons c text =>
    have hc := hs c rfl
    -- a word in front would start with that whitespace
    have hgap : ∀ {g word : List Byte}, Gap g → Stands word → c :: text = g ++ word →
        ∃ g', Gap g' ∧ text = g' ++ word := by
      intro g word hg hw heq
      cases g with
      | nil =>
        have hstop := (hw c (by rw [← List.nil_append word, ← heq]; rfl)).2
        rw [hc] at hstop
        cases hstop
      | cons d g =>
        obtain ⟨rfl, rfl⟩ := List.cons.inj heq
        exact ⟨g, hg.tail hc, rfl⟩
    show Renders ts text
    generalize hcons : c :: text = whole at h
    cases h with
    | done hg =>
      subst hcons
      rcases hg with hg | ⟨g, body, hg, hb, heq⟩
      · exact .done (Or.inl (hg.tail hc))
      · cases g with
        | nil =>
          obtain ⟨rfl, -⟩ := List.cons.inj heq
          exact absurd hc (by decide)
        | cons d g =>
          obtain ⟨rfl, rfl⟩ := List.cons.inj heq
          exact .done (Or.inr ⟨g, body, hg.tail hc, hb, rfl⟩)
    | plain ht hg hsep h =>
      obtain ⟨g', hg', rfl⟩ := hgap hg (stands_mnemonic _ _) hcons
      exact .plain ht hg' hsep h
    | int ht hg hg1 hne hn hsep h =>
      obtain ⟨g', hg', rfl⟩ := hgap hg (stands_mnemonic _ _) hcons
      exact .int ht hg' hg1 hne hn hsep h
    | decl ht hg hg1 hne hp hg2 hl h =>
      obtain ⟨g', hg', rfl⟩ := hgap hg (stands_mnemonic _ _) hcons
      exact .decl ht hg' hg1 hne hp hg2 hl h

theorem bufBytes_add (buf : Nat → Byte) (a b : Nat) :
    bufBytes buf (a + b) = bufBytes buf a ++ (List.range b).map fun j => buf (a + j) := by
  unfold bufBytes
  rw [List.range_add, List.map_append, List.map_map]
  rfl

/-- The type lists of a declaration fit into the instruction buffer. -/
def FitsBuf (i : Instr) : Prop :=
  1 + (i.params.length / 4 + 1) + (i.locals.length / 4 + 1) ≤ instrBufSz

instance (i : Instr) : Decidable (FitsBuf i) := inferInstanceAs (Decidable (_ ≤ _))

section Instructions

variable {p : Nat} {rest out : List Byte} {buf : Nat → Byte} {t : Token}

theorem parseInstr_plain (ht : t.operand = .none) (h : prog.drop p = mnemonic t ++ rest)
    (hr : Parted rest) :
    ∃ s, parseInstr prog ⟨p, buf, out⟩ = .ok s ∧ prog.drop s.place = rest
      ∧ s.out = out ++ encode { token := t } := by
  refine ⟨⟨p + (mnemonic t).length, Function.update buf 0 t.toByte,
    out ++ bufBytes (Function.update buf 0 t.toByte) 1⟩, ?_, drop_append h, ?_⟩
  · unfold parseInstr
    rw [getNextInstrToken_of h hr]
    dsimp only
    rw [show BitVec.ofNat 8 t.ctorIdx = t.toByte from rfl, ofByte_toByte, Option.map_some, ht]
  · unfold encode
    rw [ht]
    rfl

theorem parseInstr_int (ht : t.operand = .int)
    (hg : Gap g) (hne : g ≠ []) (hn : Numeral num w) (hr : Spaced rest)
    (h : prog.drop p = mnemonic t ++ (g ++ (num ++ rest))) :
    ∃ s, parseInstr prog ⟨p, buf, out⟩ = .ok s ∧ prog.drop s.place = rest.tail
      ∧ s.out = out ++ encode { token := t, arg := w } := by
  have h1 := drop_append h
  obtain ⟨q, hq, hdrop⟩ := getInt_numeral hn (drop_append h1) hr
  refine ⟨⟨q, putWord (Function.update buf 0 t.toByte) w,
    out ++ bufBytes (putWord (Function.update buf 0 t.toByte) w) 5⟩, ?_, hdrop, ?_⟩
  · unfold parseInstr
    rw [getNextInstrToken_of h (hg.parted hne)]
    dsimp only
    rw [show BitVec.ofNat 8 t.ctorIdx = t.toByte from rfl, ofByte_toByte, Option.map_some, ht]
    show (ToIr.getInt prog (consumeWhitespace prog (p + (mnemonic t).length)) >>= _) = _
    rw [consumeWhitespace_gap _ hg h1 hn.stands, hq]
    rfl
  · unfold encode
    rw [ht]
    rfl

theorem parseInstr_decl {g1 g2 text1 text2 : List Byte} {ps ls : List Ty}
    (ht : t.operand = .types) (hg1 : Gap g1) (hne : g1 ≠ []) (hp : TypeList text1 ps)
    (hg2 : Gap g2) (hl : TypeList text2 ls)
    (hfit : FitsBuf { token := t, params := ps, locals := ls })
    (h : prog.drop p = mnemonic t ++ (g1 ++ (text1 ++ (g2 ++ (text2 ++ rest))))) :
    ∃ s, parseInstr prog ⟨p, buf, out⟩ = .ok s ∧ prog.drop s.place = rest
      ∧ s.out = out ++ encode { token := t, params := ps, locals := ls } := by
  have h1 := drop_append h
  have h2 := drop_append h1
  have h3 := drop_append h2
  have h4 := drop_append h3
  unfold FitsBuf at hfit
  dsimp only at hfit
  obtain ⟨buf1, hlist1, hbytes1, hlow1⟩ := getTypeList_list 1 hp h2 (by omega)
    (Function.update buf 0 t.toByte)
  obtain ⟨buf2, hlist2, hbytes2, hlow2⟩ :=
    getTypeList_list (1 + (ps.length / 4 + 1)) hl h4 hfit buf1
  refine ⟨⟨_, buf2, out ++ bufBytes buf2
    (1 + (ps.length / 4 + 1) + (ls.length / 4 + 1))⟩, ?_, drop_append h4, ?_⟩
  · unfold parseInstr
    rw [getNextInstrToken_of h (hg1.parted hne)]
    dsimp only
    rw [show BitVec.ofNat 8 t.ctorIdx = t.toByte from rfl, ofByte_toByte, Option.map_some, ht]
    show (ToIr.getTypeList prog (consumeWhitespace prog (p + (mnemonic t).length)) _ 1 >>= _) = _
    rw [consumeWhitespace_gap _ hg1 h1 hp.stands]
    refine bind_eq_ok.2 ⟨_, hlist1, ?_⟩
    dsimp only
    rw [consumeWhitespace_gap _ hg2 h3 hl.stands]
    exact bind_eq_ok.2 ⟨_, hlist2, rfl⟩
  · have hfirst : bufBytes buf2 1 = [t.toByte] := by
      show [buf2 0] = _
      rw [hlow2 0 (by omega), hlow1 0 (by omega), Function.update_self]
    have hps : (List.range (ps.length / 4 + 1)).map (fun j => buf2 (1 + j)) = pack ps := by
      refine List.map_congr_left fun j hj => ?_
      have hj := List.mem_range.1 hj
      rw [hlow2 _ (by omega), hbytes1 j hj]
    have hls : (List.range (ls.length / 4 + 1)).map
        (fun j => buf2 (1 + (ps.length / 4 + 1) + j)) = pack ls :=
      List.map_congr_left fun j hj => hbytes2 j (List.mem_range.1 hj)
    dsimp only
    rw [bufBytes_add, bufBytes_add, hfirst, hps, hls]
    unfold encode
    rw [ht]
    rfl

end Instructions

/-- The loop of `parse_sume` encodes one instruction after the other. -/
theorem parseLoop_renders :
    ∀ {fuel : Nat} {ts : List Instr} {text out : List Byte} {p : Nat} {buf : Nat → Byte},
      Renders ts text → (∀ i ∈ ts, FitsBuf i) → prog.drop p = text → text.length < fuel →
      parseLoop prog fuel ⟨p, buf, out⟩ = .ok (out ++ encodeAll ts) := by
  intro fuel
  induction fuel with
  | zero =>
    intro ts text out p buf _ _ _ hf
    cases hf
  | succ fuel ih =>
    intro ts text out p buf h hfit hdrop hf
    -- what a round does in front of an instruction
    have hround : ∀ {t : Token} {g rest word : List Byte} {i : Instr} {is : List Instr},
        Gap g → prog.drop p = g ++ (mnemonic t ++ rest) →
        (∃ s, parseInstr prog ⟨p + g.length, buf, out⟩ = .ok s
          ∧ prog.drop s.place = word ∧ s.out = out ++ encode i) →
        word.length ≤ rest.length → Renders is word → (∀ i ∈ is, FitsBuf i) →
        g.length + (mnemonic t).length + rest.length ≤ fuel →
        parseLoop prog (fuel + 1) ⟨p, buf, out⟩ = .ok (out ++ encodeAll (i :: is)) := by
      intro t g rest word i is hg hd ⟨s, hs, hplace, hout⟩ hle hren hfits hlen
      have hmn := List.length_pos_iff.2 (mnemonic_ne_nil t)
      have hpos := length_of_drop (drop_append hd)
      rw [List.length_append] at hpos
      unfold parseLoop
      dsimp only
      rw [consumeWhitespace_gap _ hg hd (stands_mnemonic _ _), if_neg (by omega), hs]
      show parseLoop prog fuel ⟨s.place, s.buf, s.out⟩ = _
      rw [ih hren hfits hplace (by omega), hout, List.append_assoc]
      rfl
    have hrest : ∀ {i : Instr} {is : List Instr}, (∀ j ∈ i :: is, FitsBuf j) →
        FitsBuf i ∧ ∀ j ∈ is, FitsBuf j :=
      fun hall => ⟨hall _ List.mem_cons_self, fun j hj => hall j (List.mem_cons_of_mem _ hj)⟩
    cases h with
    | done hg =>
      unfold parseLoop
      dsimp only
      rw [if_pos (consumeWhitespace_end hg hdrop)]
      show Except.ok out = .ok (out ++ [])
      rw [List.append_nil]
    | plain ht hg hsep h =>
      simp only [List.length_append] at hf
      exact hround hg hdrop (parseInstr_plain ht (drop_append hdrop) hsep)
        (Nat.le_refl _) h (hrest hfit).2 (by omega)
    | @int _ _ g' num _ rest _ ht hg hg' hne hn hsep h =>
      simp only [List.length_append] at hf
      refine hround hg hdrop (parseInstr_int ht hg' hne hn hsep (drop_append hdrop)) ?_
        (h.tail hsep) (hrest hfit).2 ?_
      · simp only [List.length_append, List.length_tail]
        omega
      · simp only [List.length_append]
        omega
    | decl ht hg hg1 hne hp hg2 hl h =>
      simp only [List.length_append] at hf
      refine hround hg hdrop
        (parseInstr_decl ht hg1 hne hp hg2 hl (hrest hfit).1 (drop_append hdrop)) ?_ h
        (hrest hfit).2 ?_
      · simp only [List.length_append]
        omega
      · simp only [List.length_append]
        omega

theorem parseSume_renders (h : Renders ts prog)
    (hfit : ∀ i ∈ ts, FitsBuf i) (buf : Nat → Byte) : parseSume prog buf = .ok (encodeAll ts) :=
  parseLoop_renders h hfit rfl (Nat.lt_succ_self _)

/-- The assembler turns every way to write a program into the encoding of
its instructions, whatever its buffer holds at first; so gaps, radixes
and the case of digits make no difference. -/
theorem assembler_correct {ts : List Instr} {text : List Byte} (h : Renders ts text)
    (hfit : ∀ i ∈ ts, FitsBuf i) (buf : Nat → Byte) :
    parseSume text buf = .ok (encodeAll ts)
      ∧ ∀ text' buf', Renders ts text' → parseSume text' buf' = parseSume text buf := by
  have hout := parseSume_renders h hfit buf
  exact ⟨hout, fun text' buf' h' => (parseSume_renders h' hfit buf').trans hout.symm⟩

theorem assembler_correct_declfn :
    parseSume (chars "v.declfn (int)() ;\ni.const -x1F ret") (fun _ => 0xff)
      = .ok (encodeAll [⟨.vDeclfn, 0, [1], []⟩, ⟨.iConst, -31, [], []⟩, ⟨.ret, 0, [], []⟩]) := by
  have hspace : Gap (chars " ") := .ws rfl .nil
  have hret : Renders [⟨.ret, 0, [], []⟩] (chars " ret") :=
    .plain (t := .ret) rfl hspace (fun c hc => by cases hc) (.done (Or.inl .nil))
  have hnum : Numeral (chars "-x1F") (-31) :=
    ⟨true, .hex, chars "1F", [1, 15], by decide,
      .cons (Or.inl ⟨by decide, rfl⟩)
        (.cons (Or.inr ⟨by decide, by decide, Or.inl rfl⟩) .nil), by decide, rfl, rfl⟩
  have hconst : Renders [⟨.iConst, -31, [], []⟩, ⟨.ret, 0, [], []⟩]
      (chars " ;\ni.const -x1F ret") :=
    .int (t := .iConst) rfl (.ws rfl (@Gap.comment [] [] (by decide) .nil)) hspace
      (by decide) hnum (fun c hc => by cases hc; rfl) hret
  have hints : TypeList (chars "(int)") [1] :=
    ⟨[], chars "int", .nil, .cons (Or.inl ⟨rfl, rfl⟩) .nil .nil, rfl⟩
  have hnone : TypeList (chars "()") [] := ⟨[], [], .nil, .nil, rfl⟩
  exact (assembler_correct (.decl (t := .vDeclfn) rfl .nil hspace (by decide) hints .nil hnone
    hconst) (by decide) (fun _ => 0xff)).1

end Xv6Sume32.Sume
