/-
The numerals that `get_int` accepts.

`Text` shows that every numeral is read; here it is shown which texts are
taken for one. The function is read backwards: the loop ends only behind
digits below the radix (`getIntLoop_ok`), the character in front of them
is a digit, and what stands before it is a sign and a mark of the radix
or nothing (`getSign_ok`, `getRadix_ok`).

# The first digit

The first digit is read in front of the loop, and only the loop compares
with the radix. So a text that is accepted is a numeral exactly when its
first digit happens to be one (`get_int_wellformed_iff`): `b9` is taken
for 9 and `z` for 35. Nothing else goes wrong, since the marks `b`, `o`,
`x` and `h` are looked for before any digit is.
-/
import Xv6Sume32.Lib.Loop
import Xv6Sume32.Sume.Proofs.Text

namespace Xv6Sume32.Sume

open Lib ToIr

variable {prog : List Byte}

variable {c : Byte} {p q radix : Nat} {w : Word}

-- ======== what is claimed

/-- The characters from `p` to `q` are a numeral for `w`, and the
whitespace behind it unless the text ends there. -/
def NumeralAt (prog : List Byte) (p : Nat) (w : Word) (q : Nat) : Prop :=
  ∃ num rest, Numeral num w ∧ prog.drop p = num ++ rest
    ∧ (rest = [] ∧ q = p + num.length
      ∨ ∃ c rest', rest = c :: rest' ∧ isWhitespace c = true ∧ q = p + num.length + 1)

/-- Behind a sign and a mark of the radix, or none, stands a digit below
that radix. -/
def FirstDigitFits (prog : List Byte) (p : Nat) : Prop :=
  ∃ (neg : Bool) (r : Radix) (c : Byte) (v : Nat) (rest : List Byte),
    prog.drop p = (if neg then chars "-" else []) ++ (r.mark ++ c :: rest)
      ∧ IsDigit c v ∧ v < r.base

-- ======== the scanners, backwards

theorem charToInt_some {v : Int} (h : charToInt c = some v) :
    ∃ n : Nat, v = n ∧ IsDigit c n := by
  have hall : ∀ c : Byte, ∀ v ∈ charToInt c, 0 ≤ v ∧ IsDigit c v.toNat := by
    unfold IsDigit
    decide +kernel
  obtain ⟨h0, hd⟩ := hall c v h
  exact ⟨v.toNat, (Int.toNat_of_nonneg h0).symm, hd⟩

theorem getChar_ok (h : getChar prog p = .ok (c, q)) :
    q = p + 1 ∧ prog.drop p = c :: prog.drop (p + 1) := by
  unfold getChar at h
  split at h
  · cases h
  · rename_i c' hc
    cases h
    obtain ⟨hlt, rfl⟩ := List.getElem?_eq_some_iff.1 hc
    exact ⟨rfl, List.drop_eq_getElem_cons hlt⟩

theorem getSign_ok {neg : Bool} (h : getSign prog p = .ok (neg, c, q)) :
    prog.drop p = (if neg then chars "-" else []) ++ c :: prog.drop q
      ∧ q = p + (if neg then chars "-" else []).length + 1 := by
  obtain ⟨⟨c1, q1⟩, h1, h⟩ := bind_eq_ok.1 h
  obtain ⟨rfl, hdrop⟩ := getChar_ok h1
  dsimp only at h
  split at h
  · rename_i hminus
    obtain ⟨⟨c2, q2⟩, h2, h⟩ := bind_eq_ok.1 h
    obtain ⟨rfl, hdrop2⟩ := getChar_ok h2
    cases h
    rw [hdrop, hdrop2, hminus]
    exact ⟨rfl, rfl⟩
  · cases h
    exact ⟨hdrop, rfl⟩

/-- The mark of the radix that was read, and the character behind it. -/
theorem getRadix_ok {a : Byte} (h : getRadix prog a p = .ok (radix, c, q)) :
    ∃ r : Radix, radix = r.base ∧ a :: prog.drop p = r.mark ++ c :: prog.drop q
      ∧ p + r.mark.length = q := by
  unfold getRadix at h
  -- one character behind each of the marks
  have hmark : ∀ {n : Nat} (r : Radix), r.base = n → r.mark = [a] →
      (getChar prog p >>= fun x => (.ok (n, x.1, x.2) : Res (Nat × Byte × Nat)))
        = .ok (radix, c, q) →
      ∃ r : Radix, radix = r.base ∧ a :: prog.drop p = r.mark ++ c :: prog.drop q
        ∧ p + r.mark.length = q := by
    intro n r hn hm h
    obtain ⟨⟨c', q'⟩, h', h⟩ := bind_eq_ok.1 h
    obtain ⟨rfl, hdrop⟩ := getChar_ok h'
    cases h
    refine ⟨r, hn.symm, ?_, ?_⟩
    · rw [hm, ← hdrop]
      rfl
    · rw [hm]
      rfl
  split at h
  · rename_i ha
    exact hmark .bin rfl (by rw [ha]; rfl) h
  · split at h
    · rename_i ha
      exact hmark .oct rfl (by rw [ha]; rfl) h
    · split at h
      · rename_i ha
        rcases ha with ha | ha
        · exact hmark .hex rfl (by rw [ha]; rfl) h
        · exact hmark .hexH rfl (by rw [ha]; rfl) h
      · cases h
        exact ⟨.dec, rfl, rfl, rfl⟩

/-- The digits that the loop takes. The fuel does not run out before the
text does. -/
theorem getIntLoop_ok :
    ∀ {fuel p q : Nat} {w w' : Word}, getIntLoop prog radix fuel w p = .ok (w', q) →
      prog.length ≤ p + fuel → ∃ cs vs rest, List.Forall₂ IsDigit cs vs ∧ (∀ v ∈ vs, v < radix)
        ∧ prog.drop p = cs ++ rest
        ∧ w' = vs.foldl (fun a v => a * BitVec.ofNat 32 radix + BitVec.ofNat 32 v) w
        ∧ (rest = [] ∧ q = p + cs.length
          ∨ ∃ c rest', rest = c :: rest' ∧ isWhitespace c = true ∧ q = p + cs.length + 1) := by
  intro fuel
  induction fuel with
  | zero =>
    intro p q w w' h hlen
    cases h
    exact ⟨[], [], [], .nil, by simp, List.drop_eq_nil_of_le hlen, rfl, .inl ⟨rfl, rfl⟩⟩
  | succ fuel ih =>
    intro p q w w' h hlen
    unfold getIntLoop at h
    split at h
    · rename_i hnone
      cases h
      refine ⟨[], [], [], .nil, by simp, ?_, rfl, .inl ⟨rfl, rfl⟩⟩
      exact List.drop_eq_nil_of_le (List.getElem?_eq_none_iff.1 hnone)
    · rename_i cur hcur
      obtain ⟨hlt, rfl⟩ := List.getElem?_eq_some_iff.1 hcur
      have hdrop := List.drop_eq_getElem_cons hlt
      split at h
      · rename_i hw
        cases h
        exact ⟨[], [], _, .nil, by simp, hdrop, rfl, .inr ⟨_, _, rfl, hw, rfl⟩⟩
      · split at h
        · cases h
        · rename_i v hv
          obtain ⟨n, rfl, hn⟩ := charToInt_some hv
          split at h
          · cases h
          · rename_i hlt'
            rw [BitVec.ofInt_natCast] at h
            obtain ⟨cs, vs, rest, hd, hvs, hcs, hw', hend⟩ := ih h (by omega)
            refine ⟨prog[p] :: cs, n :: vs, rest, .cons hn hd, ?_, ?_, hw', ?_⟩
            · intro v hv
              rcases List.mem_cons.1 hv with rfl | hv
              · omega
              · exact hvs v hv
            · rw [hdrop, hcs, List.cons_append]
            · simpa [Nat.add_assoc, Nat.add_comm 1] using hend

-- ======== the whole scan

/-- What an accepted text is made of. All digits but the first are below
the radix. -/
theorem getInt_ok (h : ToIr.getInt prog p = .ok (w, q)) :
    ∃ (neg : Bool) (a : Byte) (p₁ : Nat) (r : Radix) (c : Byte) (p₂ v : Nat) (cs : List Byte)
      (vs : List Nat) (rest : List Byte),
      getSign prog p = .ok (neg, a, p₁) ∧ getRadix prog a p₁ = .ok (r.base, c, p₂)
        ∧ IsDigit c v ∧ List.Forall₂ IsDigit cs vs ∧ (∀ v ∈ vs, v < r.base)
        ∧ prog.drop p = (if neg then chars "-" else []) ++ (r.mark ++ c :: cs) ++ rest
        ∧ w = BitVec.ofInt 32
            (if neg then -(digitsValue r.base (v :: vs) : Int) else digitsValue r.base (v :: vs))
        ∧ (rest = [] ∧ q = p + ((if neg then chars "-" else []) ++ (r.mark ++ c :: cs)).length
          ∨ ∃ b rest', rest = b :: rest' ∧ isWhitespace b = true
            ∧ q = p + ((if neg then chars "-" else []) ++ (r.mark ++ c :: cs)).length + 1) := by
  obtain ⟨⟨neg, a, p₁⟩, hsign, h⟩ := bind_eq_ok.1 h
  obtain ⟨⟨radix, c, p₂⟩, hradix, h⟩ := bind_eq_ok.1 h
  obtain ⟨hdrop, hp1⟩ := getSign_ok hsign
  obtain ⟨r, rfl, hmark, hp2⟩ := getRadix_ok hradix
  dsimp only at h
  split at h
  · cases h
  · rename_i v hv
    obtain ⟨n, rfl, hn⟩ := charToInt_some hv
    obtain ⟨⟨w', q'⟩, hloop, h⟩ := bind_eq_ok.1 h
    cases h
    obtain ⟨cs, vs, rest, hd, hvs, hcs, rfl, hend⟩ := getIntLoop_ok hloop (by omega)
    refine ⟨neg, a, p₁, r, c, p₂, n, cs, vs, rest, hsign, hradix, hn, hd, hvs, ?_, ?_, ?_⟩
    · rw [hdrop, hmark, hcs]
      simp only [List.append_assoc, List.cons_append]
    · have hval : digitsValue r.base (n :: vs) = vs.foldl (fun a v => a * r.base + v) n := by
        unfold digitsValue
        rw [List.foldl_cons, Nat.zero_mul, Nat.zero_add]
      rw [BitVec.ofInt_natCast, foldl_word, hval]
      cases neg with
      | false => rw [if_neg (by decide), if_neg (by decide), BitVec.ofInt_natCast]
      | true => rw [if_pos rfl, if_pos rfl, BitVec.ofInt_neg, BitVec.ofInt_natCast]
    · rw [List.length_append, List.length_append, List.length_cons]
      rcases hend with ⟨hr, hq⟩ | ⟨b, rest', hr, hb, hq⟩
      · exact .inl ⟨hr, by omega⟩
      · exact .inr ⟨b, rest', hr, hb, by omega⟩

theorem NumeralAt.firstDigitFits (h : NumeralAt prog p w q) :
    FirstDigitFits prog p := by
  obtain ⟨num, rest, ⟨neg, r, cs, vs, hne, hd, hv, rfl, -⟩, hdrop, -⟩ := h
  cases hd with
  | nil => exact absurd rfl hne
  | @cons c v cs vs hcv hd =>
    refine ⟨neg, r, c, v, cs ++ rest, ?_, hcv, hv v List.mem_cons_self⟩
    rw [hdrop]
    simp only [List.append_assoc, List.cons_append]

/-- Where a digit below the radix stands, the scan finds that radix and
that digit: no such digit is a sign or a mark. -/
theorem FirstDigitFits.scanned (h : FirstDigitFits prog p) :
    ∃ (neg : Bool) (a : Byte) (p₁ : Nat) (r : Radix) (c : Byte) (p₂ v : Nat),
      getSign prog p = .ok (neg, a, p₁) ∧ getRadix prog a p₁ = .ok (r.base, c, p₂)
        ∧ IsDigit c v ∧ v < r.base := by
  obtain ⟨neg, r, c, v, rest, hdrop, hd, hv⟩ := h
  obtain ⟨a, tail, ha, hminus, -⟩ := exists_first hd hv rest
  rw [ha] at hdrop
  cases neg with
  | false =>
    obtain ⟨p₂, hradix, -⟩ := getRadix_mark hd hv ha hdrop
    exact ⟨false, a, p + 1, r, c, p₂, v, getSign_pos hminus hdrop, hradix, hd, hv⟩
  | true =>
    obtain ⟨p₂, hradix, -⟩ := getRadix_mark hd hv ha (drop_cons hdrop)
    exact ⟨true, a, p + 1 + 1, r, c, p₂, v, getSign_neg hdrop, hradix, hd, hv⟩

/-- A character is the digit of one value. -/
theorem IsDigit.unique {v v' : Nat} (h : IsDigit c v) (h' : IsDigit c v') : v = v' := by
  have := (charToInt_digit h).symm.trans (charToInt_digit h')
  exact Int.ofNat_inj.1 (Option.some.inj this)

-- ======== the result

/-- A text that `get_int` accepts is a numeral, with its signed value
modulo `2 ^ 32`, exactly when its first digit is below the radix. -/
theorem get_int_wellformed_iff {p q : Nat} {w : Word} (h : ToIr.getInt prog p = .ok (w, q)) :
    NumeralAt prog p w q ↔ FirstDigitFits prog p := by
  constructor
  · exact NumeralAt.firstDigitFits
  · intro hfits
    obtain ⟨neg, a, p₁, r, c, p₂, v, cs, vs, rest, hsign, hradix, hcv, hd, hvs, hdrop, hw, hend⟩ :=
      getInt_ok h
    obtain ⟨neg', a', p₁', r', c', p₂', v', hsign', hradix', hcv', hv'⟩ := hfits.scanned
    cases hsign.symm.trans hsign'
    have hsame := hradix.symm.trans hradix'
    simp only [Except.ok.injEq, Prod.mk.injEq] at hsame
    obtain ⟨hbase, rfl, -⟩ := hsame
    have hfirst : v < r.base := by
      rw [hcv.unique hcv', hbase]
      exact hv'
    refine ⟨_, rest, ⟨neg, r, c :: cs, v :: vs, by simp, .cons hcv hd, ?_, rfl, hw⟩, hdrop, hend⟩
    intro u hu
    rcases List.mem_cons.1 hu with rfl | hu
    · exact hfirst
    · exact hvs u hu

theorem get_int_wellformed_hex : NumeralAt (chars "-xF0 ret") 0 (-240) 5 := by
  have hget : ToIr.getInt (chars "-xF0 ret") 0 = .ok (-240, 5) := by decide +kernel
  refine (get_int_wellformed_iff hget).2 ⟨true, .hex, ch 'F', 15, chars "0 ret", rfl, ?_, ?_⟩
  · exact .inr ⟨by decide, by decide, .inl rfl⟩
  · decide

/-- The digit 9 in radix 2. -/
theorem get_int_accepts_b9 :
    ToIr.getInt (chars "b9") 0 = .ok (9, 2) ∧ ¬ NumeralAt (chars "b9") 0 9 2 := by
  refine ⟨by decide +kernel, ?_⟩
  intro hn
  obtain ⟨neg, a, p₁, r, c, p₂, v, hsign, hradix, hcv, hv⟩ := hn.firstDigitFits.scanned
  have hsign' : getSign (chars "b9") 0 = .ok (false, ch 'b', 1) := by decide +kernel
  have hradix' : getRadix (chars "b9") (ch 'b') 1 = .ok (2, ch '9', 2) := by decide +kernel
  rw [hsign', Except.ok.injEq, Prod.mk.injEq, Prod.mk.injEq] at hsign
  obtain ⟨-, rfl, rfl⟩ := hsign
  rw [hradix', Except.ok.injEq, Prod.mk.injEq, Prod.mk.injEq] at hradix
  obtain ⟨hbase, rfl, -⟩ := hradix
  have hnine : IsDigit (ch '9') 9 := .inl ⟨by decide, rfl⟩
  rw [← hbase, hcv.unique hnine] at hv
  exact absurd hv (by decide)

end Xv6Sume32.Sume
