/-
Bytes and little-endian words, the vocabulary every layer above shares:
the assembler writes 32-bit immediates with `memmove`, the machine
reads them back, and the disk stores block numbers the same way.

Nothing here names the repository. The file is only the two directions
of the encoding and the lemmas that say they are inverse.
-/
import Mathlib.Tactic

namespace Xv6Sume32.Lib

/-- One byte of memory or of a program text. -/
abbrev Byte := BitVec 8

/-- One 32-bit machine word. -/
abbrev Word := BitVec 32

-- ======== little endian

/-- Byte `i` of a word, the least significant first. -/
def byteOf (w : Word) (i : Nat) : Byte := w.extractLsb' (8 * i) 8

/-- The four bytes of a word in memory order. -/
def leBytes (w : Word) : List Byte :=
  [byteOf w 0, byteOf w 1, byteOf w 2, byteOf w 3]

/-- The word whose bytes in memory order are `b0 b1 b2 b3`. -/
def ofLe (b0 b1 b2 b3 : Byte) : Word := b3 ++ b2 ++ b1 ++ b0

/-- The 16-bit value whose bytes in memory order are `b0 b1`. -/
def ofLe16 (b0 b1 : Byte) : BitVec 16 := b1 ++ b0

@[simp] theorem leBytes_length (w : Word) : (leBytes w).length = 4 := rfl

/-- Reading back the four bytes of a word gives the word. -/
@[simp] theorem ofLe_byteOf (w : Word) :
    ofLe (byteOf w 0) (byteOf w 1) (byteOf w 2) (byteOf w 3) = w := by
  unfold ofLe byteOf
  ext i hi
  have hbit : ∀ j, j = i → w.getLsbD j = w[i] := by
    intro j hj
    rw [hj, BitVec.getLsbD_eq_getElem hi]
  simp only [BitVec.getElem_append, BitVec.getElem_extractLsb']
  split
  · exact hbit _ (by omega)
  · split
    · exact hbit _ (by omega)
    · split <;> exact hbit _ (by omega)

/-- A word is determined by its bytes in memory. -/
theorem leBytes_injective {v w : Word} (h : leBytes v = leBytes w) : v = w := by
  simp only [leBytes, List.cons.injEq, and_true] at h
  obtain ⟨h0, h1, h2, h3⟩ := h
  rw [← ofLe_byteOf v, h0, h1, h2, h3, ofLe_byteOf]

/-- The bytes of a word that is put together from four. -/
theorem byteOf_ofLe (f : Nat → Byte) {k : Nat} (hk : k < 4) :
    byteOf (ofLe (f 0) (f 1) (f 2) (f 3)) k = f k := by
  have hbit : ∀ m, (ofLe (f 0) (f 1) (f 2) (f 3)).getLsbD m
      = if m < 8 then (f 0).getLsbD m else if m - 8 < 8 then (f 1).getLsbD (m - 8)
        else if m - 8 - 8 < 8 then (f 2).getLsbD (m - 8 - 8)
        else (f 3).getLsbD (m - 8 - 8 - 8) := by
    intro m
    show BitVec.getLsbD (w := 8 + 8 + 8 + 8) (f 3 ++ f 2 ++ f 1 ++ f 0) m = _
    simp only [BitVec.getLsbD_append, Bool.cond_eq_ite, decide_eq_true_eq]
  ext j hj
  rw [byteOf, BitVec.getElem_extractLsb', hbit, ← BitVec.getLsbD_eq_getElem hj]
  interval_cases k
  · rw [if_pos (by omega)]
    congr 1
    omega
  · rw [if_neg (by omega), if_pos (by omega)]
    congr 1
    omega
  · rw [if_neg (by omega), if_neg (by omega), if_pos (by omega)]
    congr 1
    omega
  · rw [if_neg (by omega), if_neg (by omega), if_neg (by omega)]
    congr 1
    omega

end Xv6Sume32.Lib
