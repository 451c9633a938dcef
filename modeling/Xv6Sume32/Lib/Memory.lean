/-
A flat byte memory under 32-bit addresses: loads and stores of one, two
and four bytes, and code laid out in memory. Addresses are machine words
and wrap.
-/
import Xv6Sume32.Lib.Bytes

namespace Xv6Sume32.Lib

/-- A byte memory over the whole 32-bit address space. -/
abbrev Mem := Word → Byte

-- ======== loads and stores

/-- The 16-bit value stored at `a`. -/
def Mem.load16 (m : Mem) (a : Word) : BitVec 16 := ofLe16 (m a) (m (a + 1))

/-- The word stored at `a`. -/
def Mem.load32 (m : Mem) (a : Word) : Word :=
  ofLe (m a) (m (a + 1)) (m (a + 2)) (m (a + 3))

/-- Overwrite one byte. -/
def Mem.store8 (m : Mem) (a : Word) (b : Byte) : Mem :=
  fun x => if x = a then b else m x

/-- Overwrite the four bytes at `a` with a word. -/
def Mem.store32 (m : Mem) (a : Word) (w : Word) : Mem := fun x =>
  if x = a then byteOf w 0
  else if x = a + 1 then byteOf w 1
  else if x = a + 2 then byteOf w 2
  else if x = a + 3 then byteOf w 3
  else m x

/-- A word just stored is read back. -/
@[simp] theorem Mem.load32_store32 (m : Mem) (a w : Word) : (m.store32 a w).load32 a = w := by
  have h10 : a + 1 ≠ a := by bv_omega
  have h20 : a + 2 ≠ a := by bv_omega
  have h21 : a + 2 ≠ a + 1 := by bv_omega
  have h30 : a + 3 ≠ a := by bv_omega
  have h31 : a + 3 ≠ a + 1 := by bv_omega
  have h32 : a + 3 ≠ a + 2 := by bv_omega
  unfold Mem.load32 Mem.store32
  simp only [h10, h20, h21, h30, h31, h32, if_true, if_false]
  exact ofLe_byteOf w

-- ======== bytes in memory

/-- The bytes `bs` are stored from address `a` on. -/
def BytesAt (m : Mem) (a : Word) (bs : List Byte) : Prop :=
  ∀ i (h : i < bs.length), m (a + BitVec.ofNat 32 i) = bs[i]

/-- Laid-out bytes split where the lists do. -/
theorem bytesAt_append {m : Mem} {a : Word} {xs ys : List Byte} : BytesAt m a (xs ++ ys) ↔
      BytesAt m a xs ∧ BytesAt m (a + BitVec.ofNat 32 xs.length) ys := by
  constructor
  · intro h
    refine ⟨fun i hi => ?_, fun i hi => ?_⟩
    · have := h i (by rw [List.length_append]; omega)
      rwa [List.getElem_append_left hi] at this
    · have := h (xs.length + i) (by rw [List.length_append]; omega)
      rw [List.getElem_append_right (by omega)] at this
      simp only [Nat.add_sub_cancel_left] at this
      rw [BitVec.add_assoc, ← BitVec.ofNat_add]
      exact this
  · rintro ⟨hx, hy⟩ i hi
    by_cases hlt : i < xs.length
    · rw [List.getElem_append_left hlt]
      exact hx i hlt
    · rw [List.length_append] at hi
      rw [List.getElem_append_right (by omega)]
      have := hy (i - xs.length) (by omega)
      rw [BitVec.add_assoc, ← BitVec.ofNat_add,
        show xs.length + (i - xs.length) = i by omega] at this
      exact this

end Xv6Sume32.Lib
