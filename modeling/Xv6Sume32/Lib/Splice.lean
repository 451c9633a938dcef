/-
Arrays that are overwritten in parts.

An array that grows is a function of the index, of which a first part is
looked at; `overwrite` puts a list into it. Writing a list piece by piece
is writing it at once (`overwrite_append`). What is looked at is a list,
into which the same operation is a `splice`.
-/
import Mathlib.Tactic

namespace Xv6Sume32.Lib

variable {α : Type}

/-- Put a list at an offset. -/
def overwrite (f : Nat → α) (off : Nat) (src : List α) (o : Nat) : α :=
  if off ≤ o then src[o - off]?.getD (f o) else f o

/-- Put a list at an offset of a list, which it may extend. -/
def splice (c : List α) (off : Nat) (src : List α) : List α :=
  c.take off ++ src ++ c.drop (off + src.length)

/-- The first part of an array. -/
def firstOf (f : Nat → α) (n : Nat) : List α := (List.range n).map f

section

variable (f : Nat → α) (off : Nat)

@[simp] theorem firstOf_length (n : Nat) : (firstOf f n).length = n := by simp [firstOf]

theorem firstOf_getElem {n o : Nat} (h : o < (firstOf f n).length) : (firstOf f n)[o] = f o := by
  simp [firstOf]

theorem firstOf_add (m n : Nat) :
    firstOf f (m + n) = firstOf f m ++ firstOf (fun k => f (m + k)) n := by
  simp [firstOf, List.range_add, Function.comp_def]

theorem overwrite_nil : overwrite f off [] = f := by
  funext o
  simp [overwrite]

theorem overwrite_before (src : List α) {o : Nat} (h : o < off) : overwrite f off src o = f o :=
  if_neg (Nat.not_le.2 h)

theorem overwrite_after (src : List α) {o : Nat} (h : off + src.length ≤ o) :
    overwrite f off src o = f o := by
  have hle : src.length ≤ o - off := by omega
  rw [overwrite, if_pos (by omega), List.getElem?_eq_none hle]
  rfl

theorem overwrite_append (src rest : List α) :
    overwrite (overwrite f off src) (off + src.length) rest = overwrite f off (src ++ rest) := by
  funext o
  rcases Nat.lt_or_ge o (off + src.length) with h | h
  · rw [overwrite_before _ _ _ h]
    unfold overwrite
    split
    · rw [List.getElem?_append_left (by omega)]
    · rfl
  · rw [overwrite, if_pos h, overwrite_after _ _ _ h, overwrite, if_pos (by omega),
      List.getElem?_append_right (by omega), Nat.sub_add_eq]

theorem firstOf_overwrite {n : Nat} (src : List α) (h : off ≤ n) :
    firstOf (overwrite f off src) (max n (off + src.length)) = splice (firstOf f n) off src := by
  unfold splice
  apply List.ext_getElem
  · simp only [firstOf_length, List.length_append, List.length_take, List.length_drop]
    omega
  · intro o h1 h2
    rw [firstOf_length] at h1
    have htake : ((firstOf f n).take off).length = off := by
      rw [List.length_take, firstOf_length, Nat.min_eq_left h]
    rw [firstOf_getElem]
    rcases Nat.lt_or_ge o (off + src.length) with hlt | hge
    · rw [List.getElem_append_left (by rw [List.length_append, htake]; exact hlt)]
      rcases Nat.lt_or_ge o off with hb | hb
      · rw [overwrite_before _ _ _ hb, List.getElem_append_left (by rw [htake]; exact hb),
          List.getElem_take, firstOf_getElem]
      · have hidx : o - off < src.length := by omega
        rw [List.getElem_append_right (by rw [htake]; exact hb), overwrite, if_pos hb,
          List.getElem?_eq_getElem hidx]
        simp only [htake, Option.getD_some]
    · rw [overwrite_after _ _ _ hge,
        List.getElem_append_right (by rw [List.length_append, htake]; exact hge),
        List.getElem_drop, firstOf_getElem]
      congr 1
      rw [List.length_append, htake]
      omega

/-- A part of the first part. -/
theorem firstOf_part (n m : Nat) :
    ((firstOf f n).drop off).take m = firstOf (fun k => f (off + k)) (min m (n - off)) := by
  apply List.ext_getElem
  · simp
  · intro o h1 h2
    simp [firstOf]

end

end Xv6Sume32.Lib
