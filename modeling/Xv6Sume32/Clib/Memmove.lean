/-
The two `memmove`s: the kernel's (`string.c`), which copies backwards
where the destination overlaps the end of the source, and the one of the
user library (`ulib.c`), which copies forwards only and takes its length
as an `int`.

`moved` is what a call is for, one equation over the whole memory. Each
loop is compared with it by induction on the number of bytes, always
with the byte at offset `n` as the new one: the forward loop ends with
it (`copyForward_succ`), the backward loop starts with it. A forward
loop over an overlap leaves the destination equal to the source as it is
*after* the copy (`copyForward_shift`), which is where the copy goes
wrong.
-/
import Xv6Sume32.Lib.Memory

namespace Xv6Sume32.Clib

open Lib

-- ======== the code

/-- `while(n-- > 0) *d++ = *s++` -/
def copyForward (m : Mem) (d s : Word) : Nat → Mem
  | 0 => m
  | n + 1 => copyForward (m.store8 d (m s)) (d + 1) (s + 1) n

/-- `while(n-- > 0) *--d = *--s` -/
def copyBackward (m : Mem) (d s : Word) : Nat → Mem
  | 0 => m
  | n + 1 => copyBackward (m.store8 (d - 1) (m (s - 1))) (d - 1) (s - 1) n

/-- `memmove` of the kernel: what it returns, and the memory behind it. -/
def kmemmove (m : Mem) (dst src n : Word) : Word × Mem :=
  if src < dst ∧ src + n > dst then (dst, copyBackward m (dst + n) (src + n) n.toNat)
  else (dst, copyForward m dst src n.toNat)

/-- `memmove` of the user library. -/
def memmove (m : Mem) (dst src n : Word) : Word × Mem :=
  -- `n` is an `int`: the loop does not start on a negative one
  (dst, copyForward m dst src n.toInt.toNat)

-- ======== what it is for

/-- The memory with the `n` bytes at `src` copied to `dst`. -/
def moved (m : Mem) (dst src : Word) (n : Nat) : Mem := fun a =>
  if dst.toNat ≤ a.toNat ∧ a.toNat < dst.toNat + n then m (src + (a - dst)) else m a

variable {m : Mem} {dst src : Word} {n : Nat}

/-- One more byte, the last one. -/
theorem moved_succ (hd : dst.toNat + (n + 1) ≤ 2 ^ 32) : moved m dst src (n + 1) =
    (moved m dst src n).store8 (dst + BitVec.ofNat 32 n) (m (src + BitVec.ofNat 32 n)) := by
  funext a
  unfold Mem.store8 moved
  by_cases ha : a = dst + BitVec.ofNat 32 n
  · rw [if_pos ha, if_pos (by bv_omega), ha]
    congr 1
    bv_omega
  · rw [if_neg ha]
    exact if_congr (by bv_omega) rfl rfl

/-- A byte outside the destination stays. -/
theorem moved_apply_of_not_mem {a : Word} (ha : a.toNat < dst.toNat ∨ dst.toNat + n ≤ a.toNat) :
    moved m dst src n a = m a :=
  if_neg (by omega)

theorem moved_zero : moved m dst src 0 = m :=
  funext fun a => moved_apply_of_not_mem (by omega)

theorem moved_self : moved m dst dst n = m := by
  funext a
  unfold moved
  split
  · congr 1
    bv_omega
  · rfl

-- ======== forwards

theorem copyForward_succ (m : Mem) (d s : Word) (n : Nat) : copyForward m d s (n + 1) =
    (copyForward m d s n).store8 (d + BitVec.ofNat 32 n)
      (copyForward m d s n (s + BitVec.ofNat 32 n)) := by
  induction n generalizing m d s with
  | zero =>
    show m.store8 d (m s) = m.store8 (d + 0#32) (m (s + 0#32))
    rw [BitVec.add_zero, BitVec.add_zero]
  | succ n ih =>
    have hshift : ∀ p : Word, p + 1 + BitVec.ofNat 32 n = p + BitVec.ofNat 32 (n + 1) := by
      intro p
      bv_omega
    rw [copyForward, ih, hshift, hshift]
    rfl

/-- Forwards is right where the destination does not start inside the
source. -/
theorem copyForward_eq (hd : dst.toNat + n ≤ 2 ^ 32) (hs : src.toNat + n ≤ 2 ^ 32)
    (h : dst.toNat ≤ src.toNat ∨ src.toNat + n ≤ dst.toNat) :
    copyForward m dst src n = moved m dst src n := by
  induction n with
  | zero => exact moved_zero.symm
  | succ n ih =>
    rw [copyForward_succ, ih (by omega) (by omega) (by omega), moved_succ hd]
    -- the byte read now has not been written yet
    rw [moved_apply_of_not_mem (a := src + BitVec.ofNat 32 n) (by bv_omega)]

/-- Over an overlap, the destination is the source as it is afterwards. -/
theorem copyForward_shift (hd : dst.toNat + n ≤ 2 ^ 32) (h : src.toNat < dst.toNat) :
    (∀ i < n, copyForward m dst src n (dst + BitVec.ofNat 32 i) =
      copyForward m dst src n (src + BitVec.ofNat 32 i)) ∧
      copyForward m dst src n src = m src := by
  induction n with
  | zero => exact ⟨fun i hi => absurd hi (Nat.not_lt_zero i), rfl⟩
  | succ n ih =>
    obtain ⟨ih, ihsrc⟩ := ih (by omega)
    rw [copyForward_succ]
    unfold Mem.store8
    refine ⟨fun i hi => ?_, by rw [if_neg (by bv_omega), ihsrc]⟩
    rw [if_neg (c := src + _ = _) (by bv_omega)]
    by_cases hin : i = n
    · rw [if_pos (by rw [hin]), hin]
    · rw [if_neg (by bv_omega)]
      exact ih i (by omega)

-- ======== backwards

/-- Backwards is right where the destination does not start in front of
the source. -/
theorem copyBackward_eq (hd : dst.toNat + n ≤ 2 ^ 32) (h : src.toNat ≤ dst.toNat) :
    copyBackward m (dst + BitVec.ofNat 32 n) (src + BitVec.ofNat 32 n) n = moved m dst src n := by
  induction n generalizing m with
  | zero => exact moved_zero.symm
  | succ n ih =>
    have hback : ∀ p : Word, p + BitVec.ofNat 32 (n + 1) - 1 = p + BitVec.ofNat 32 n := by
      intro p
      bv_omega
    rw [copyBackward, hback, hback, ih (by omega), moved_succ hd]
    funext a
    unfold moved Mem.store8
    beta_reduce
    by_cases ha : dst.toNat ≤ a.toNat ∧ a.toNat < dst.toNat + n
    · rw [if_pos ha, if_pos ha, if_neg (by bv_omega), if_neg (by bv_omega)]
    · rw [if_neg ha, if_neg ha]

-- ======== the two calls

/-- One byte that differs from all others. -/
def spot (a : Word) : Mem := fun x => if x = a then 1 else 0

/-- The length of the user's loop. -/
theorem toInt_toNat (n : Word) : n.toInt.toNat = if n.toNat < 2 ^ 31 then n.toNat else 0 := by
  rw [BitVec.toInt_eq_toNat_cond]
  split <;> split <;> omega

/-- A forward copy into its own source repeats the first byte. -/
theorem copyForward_ne_moved (hd : dst.toNat + n ≤ 2 ^ 32) (h : src.toNat < dst.toNat)
    (hin : dst.toNat < src.toNat + n) :
    copyForward (spot src) dst src n ≠ moved (spot src) dst src n := by
  intro heq
  obtain ⟨hshift, hsrc⟩ := copyForward_shift (m := spot src) hd h
  have hfirst := hshift 0 (by omega)
  rw [BitVec.add_zero, BitVec.add_zero, hsrc] at hfirst
  have hnext := hshift (dst.toNat - src.toNat) (by omega)
  rw [show src + BitVec.ofNat 32 (dst.toNat - src.toNat) = dst by bv_omega, hfirst, heq] at hnext
  unfold moved spot at hnext
  rw [if_pos (by bv_omega), if_neg (by bv_omega), if_pos rfl] at hnext
  exact absurd hnext (by decide)

/-- The kernel's `memmove` is right on every pair of ranges. The user
library's is right on every memory exactly where the ranges are the
same, or the length is not negative as an `int` and the destination does
not start inside the source. -/
theorem memmove_right_iff (dst src n : Word) (hd : dst.toNat + n.toNat ≤ 2 ^ 32)
    (hs : src.toNat + n.toNat ≤ 2 ^ 32) :
    (∀ m, kmemmove m dst src n = (dst, moved m dst src n.toNat)) ∧
    ((∀ m, memmove m dst src n = (dst, moved m dst src n.toNat)) ↔ n = 0 ∨ dst = src ∨
      n.toNat < 2 ^ 31 ∧ (dst.toNat < src.toNat ∨ src.toNat + n.toNat ≤ dst.toNat)) := by
  constructor
  · intro m
    unfold kmemmove
    split
    · have hback : copyBackward m (dst + BitVec.ofNat 32 n.toNat) (src + BitVec.ofNat 32 n.toNat)
          n.toNat = moved m dst src n.toNat := copyBackward_eq hd (by bv_omega)
      rw [BitVec.ofNat_toNat, BitVec.setWidth_eq] at hback
      rw [hback]
    · rw [copyForward_eq hd hs (by bv_omega)]
  unfold memmove
  rw [toInt_toNat]
  constructor
  · intro hright
    by_contra hcon
    obtain ⟨hn, hne, hcon⟩ := not_or.1 hcon |>.imp_right not_or.1
    have hright := (Prod.mk.inj (hright (spot src))).2
    split at hright
    · exact copyForward_ne_moved hd (by bv_omega) (by bv_omega) hright
    · -- nothing was copied, and the first byte had to change
      have := congrFun hright dst
      unfold moved at this
      rw [if_pos (by bv_omega), BitVec.sub_self, BitVec.add_zero] at this
      unfold copyForward spot at this
      rw [if_neg hne, if_pos rfl] at this
      exact absurd this (by decide)
  · rintro (rfl | rfl | ⟨hlt, hno⟩) m
    · exact congrArg (Prod.mk dst) moved_zero.symm
    · rw [moved_self]
      split
      · rw [copyForward_eq hd hd (.inl (Nat.le_refl _)), moved_self]
      · rfl
    · rw [if_pos hlt, copyForward_eq hd hs (hno.imp_left Nat.le_of_lt)]

theorem memmove_right_iff_apart :
    (∀ m, kmemmove m 0x2000 0x1000 4 = (0x2000, moved m 0x2000 0x1000 4)) ∧
    ∀ m, memmove m 0x2000 0x1000 4 = (0x2000, moved m 0x2000 0x1000 4) := by
  obtain ⟨hk, hu⟩ := memmove_right_iff 0x2000 0x1000 4 (by decide) (by decide)
  exact ⟨hk, hu.2 (.inr (.inr ⟨by decide, .inr (by decide)⟩))⟩

/-- Two bytes moved one byte up: the user library writes the first one
twice. -/
theorem memmove_overlap_wrong :
    (memmove (spot 0x1000) 0x1001 0x1000 2).2 0x1002 = 1 ∧
    (kmemmove (spot 0x1000) 0x1001 0x1000 2).2 0x1002 = 0 ∧
    memmove (spot 0x1000) 0x1001 0x1000 2 ≠ (0x1001, moved (spot 0x1000) 0x1001 0x1000 2) := by
  have hu : (memmove (spot 0x1000) 0x1001 0x1000 2).2 0x1002 = 1 := by decide
  refine ⟨hu, by decide, fun h => ?_⟩
  rw [h] at hu
  exact absurd hu (by decide)

end Xv6Sume32.Clib
