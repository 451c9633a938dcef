/-
When a growable array is what it should be.

`append_dyn_arr` allocates a larger block where the string does not fit,
copies the old contents there and forgets it: neither `data` nor `max_sz`
changes (`append_fields`), and the string is written behind the old
block. So an array never holds more than it was made for, and the result
is exact: the array is sound after a run of calls exactly when the first
`malloc` succeeded, all strings together fit into the first block, and
none is so long that `memmove` takes its length for negative
(`dyn_arr_sound_iff`).

As long as the strings fit, the one block of the array is followed byte
by byte (`content`, `run_content`).
-/
import Xv6Sume32.Sume.DynArr

namespace Xv6Sume32.Sume.DynArr

open Lib

variable {grants : Nat → Bool} {junk : Nat → Byte}

variable {args : List Arg} {cap : Word} {off j : Nat} {a : Arg}

-- ======== what is claimed

/-- The array holds `bytes`: its pointer leads to a block of `max_sz`
bytes, of which the first `size` are these. -/
def Sound (s : State) (bytes : List Byte) : Prop :=
  ∃ b blk, s.arr.data = some b ∧ s.blocks[b]? = some blk ∧ s.arr.size ≤ s.arr.maxSz
    ∧ s.arr.maxSz.toNat = blk.len ∧ (List.range s.arr.size.toNat).map blk.bytes = bytes

/-- The bytes of some strings together. -/
def lengths (args : List Arg) : Nat := (args.map fun a => a.sz.toNat).sum

theorem length_flatMap_bytes (args : List Arg) :
    (args.flatMap Arg.bytes).length = lengths args := by
  unfold lengths
  rw [List.length_flatMap]
  simp [Arg.bytes]

-- ======== what one call does

/-- A call that returns leaves the pointer and the capacity alone. -/
theorem append_fields {s s' : State} {dat : Nat → Byte} {sz : Word}
    (h : appendDynArr grants junk s dat sz = .ok s') :
    s'.arr.data = s.arr.data ∧ s'.arr.maxSz = s.arr.maxSz := by
  obtain ⟨⟨blocks, calls⟩, -, h⟩ := bind_eq_ok.1 h
  obtain ⟨blocks', -, h⟩ := bind_eq_ok.1 h
  cases h
  exact ⟨rfl, rfl⟩

theorem foldlM_fields :
    ∀ {s s' : State}, args.foldlM (fun s a => appendDynArr grants junk s a.dat a.sz) s = .ok s' →
      s'.arr.data = s.arr.data ∧ s'.arr.maxSz = s.arr.maxSz := by
  induction args with
  | nil =>
    intro s s' h
    cases h
    exact ⟨rfl, rfl⟩
  | cons a args ih =>
    intro s s' h
    rw [List.foldlM_cons] at h
    obtain ⟨t, ht, h⟩ := bind_eq_ok.1 h
    obtain ⟨hdata, hmax⟩ := ih h
    obtain ⟨hdata', hmax'⟩ := append_fields ht
    exact ⟨hdata.trans hdata', hmax.trans hmax'⟩

/-- The block after a string was copied to offset `off`. -/
def put (base : Nat → Byte) (off : Nat) (a : Arg) : Nat → Byte :=
  if a.sz.toInt ≤ 0 then base
  else fun j => if off ≤ j ∧ j < off + a.sz.toNat then a.dat (j - off) else base j

/-- An array with `off` bytes in its first block. -/
def held (cap : Word) (off : Nat) (base : Nat → Byte) : State :=
  ⟨[⟨cap.toNat, base⟩], 1, ⟨some 0, BitVec.ofNat 32 off, cap⟩⟩

theorem append_fits {base : Nat → Byte}
    (hfit : off + a.sz.toNat ≤ cap.toNat) : appendDynArr grants junk (held cap off base) a.dat a.sz
      = .ok (held cap (off + a.sz.toNat) (put base off a)) := by
  have hcap := cap.isLt
  have hoff : (BitVec.ofNat 32 off).toNat = off := by
    rw [BitVec.toNat_ofNat, Nat.mod_eq_of_lt (by omega)]
  have hsize : BitVec.ofNat 32 off + a.sz = BitVec.ofNat 32 (off + a.sz.toNat) := by
    rw [BitVec.ofNat_add, BitVec.ofNat_toNat, BitVec.setWidth_eq]
  have hroom : ¬ cap < BitVec.ofNat 32 off + a.sz := by
    rw [hsize, BitVec.lt_def, BitVec.toNat_ofNat, Nat.mod_eq_of_lt (by omega)]
    omega
  have hmove : memmove [⟨cap.toNat, base⟩] (some 0) off a.dat a.sz
      = .ok [⟨cap.toNat, put base off a⟩] := by
    unfold memmove put
    split
    · rfl
    · show (if off + a.sz.toNat ≤ cap.toNat then _ else _) = _
      rw [if_pos hfit]
      rfl
  have hgrow : grow grants junk (held cap off base) a.sz = .ok ([⟨cap.toNat, base⟩], 1) := by
    unfold grow
    exact if_neg hroom
  refine bind_of_ok hgrow ?_
  unfold held
  dsimp only
  rw [hoff, hsize]
  exact bind_of_ok hmove rfl

-- ======== runs that fit

/-- The first block after some strings were copied, from offset `off`
on. -/
def content : List Arg → Nat → (Nat → Byte) → Nat → Byte
  | [], _, base => base
  | a :: args, off, base => content args (off + a.sz.toNat) (put base off a)

theorem foldlM_content : ∀ (off : Nat) (base : Nat → Byte), off + lengths args ≤ cap.toNat →
      args.foldlM (fun s a => appendDynArr grants junk s a.dat a.sz) (held cap off base)
        = .ok (held cap (off + lengths args) (content args off base)) := by
  induction args with
  | nil => exact fun _ _ _ => rfl
  | cons a args ih =>
    intro off base hfit
    have hsum : lengths (a :: args) = a.sz.toNat + lengths args := List.sum_cons
    rw [hsum] at hfit ⊢
    rw [List.foldlM_cons]
    refine bind_of_ok (append_fits (by omega)) ?_
    rw [ih _ _ (by omega), ← Nat.add_assoc]
    rfl

theorem run_content (hgrant : grants 0 = true) (hfit : lengths args ≤ cap.toNat) :
    run grants junk cap args = .ok (held cap (lengths args) (content args 0 junk)) := by
  have hmake : makeDynArr grants junk cap = held cap 0 junk := by
    unfold makeDynArr malloc
    rw [if_pos hgrant]
    rfl
  unfold run
  rw [hmake, foldlM_content 0 junk (by rw [Nat.zero_add]; exact hfit), Nat.zero_add]

-- -------- byte by byte

theorem put_lt {base : Nat → Byte} (hj : j < off) : put base off a j = base j := by
  unfold put
  split
  · rfl
  · exact if_neg (by omega)

theorem put_ge {base : Nat → Byte} (hj : off + a.sz.toNat ≤ j) : put base off a j = base j := by
  unfold put
  split
  · rfl
  · exact if_neg (by omega)

theorem content_lt :
    ∀ {off j : Nat} {base : Nat → Byte}, j < off → content args off base j = base j := by
  induction args with
  | nil => exact fun _ => rfl
  | cons a args ih =>
    intro off j base hj
    unfold content
    rw [ih (by omega), put_lt hj]

theorem toInt_le_zero_iff (w : Word) : w.toInt ≤ 0 ↔ w.toNat = 0 ∨ 2 ^ 31 ≤ w.toNat := by
  have := w.isLt
  rw [BitVec.toInt_eq_toNat_cond]
  split <;> omega

/-- Short strings are all there. -/
theorem content_short : ∀ (off : Nat) (base : Nat → Byte), (∀ a ∈ args, a.sz.toNat < 2 ^ 31) →
      (List.range (lengths args)).map (fun j => content args off base (off + j))
        = args.flatMap Arg.bytes := by
  induction args with
  | nil => exact fun _ _ _ => rfl
  | cons a args ih =>
    intro off base hshort
    have ha := hshort a List.mem_cons_self
    have hrest := ih (off + a.sz.toNat) (put base off a)
      fun b hb => hshort b (List.mem_cons_of_mem _ hb)
    rw [show lengths (a :: args) = a.sz.toNat + lengths args from List.sum_cons,
      List.range_add, List.map_append, List.map_map, List.flatMap_cons, ← hrest]
    congr 1
    · refine List.map_congr_left fun j hj => ?_
      have hj := List.mem_range.1 hj
      show content args _ _ (off + j) = _
      rw [content_lt (by omega)]
      unfold put
      rw [if_neg (by rw [toInt_le_zero_iff]; omega), if_pos (by omega), Nat.add_sub_cancel_left]
    · refine List.map_congr_left fun j _ => ?_
      show content args _ _ (off + (a.sz.toNat + j)) = _
      rw [Nat.add_assoc]

/-- Where a string is too long to be copied, the block keeps what it
held. -/
theorem content_long (pre post : List Arg) (ha : 2 ^ 31 ≤ a.sz.toNat) :
    ∀ (off : Nat) (base : Nat → Byte),
      content (pre ++ a :: post) off base (off + lengths pre) = base (off + lengths pre) := by
  induction pre with
  | nil =>
    intro off base
    show content post (off + a.sz.toNat) (put base off a) (off + 0) = _
    rw [content_lt (by omega)]
    unfold put
    rw [if_pos (by rw [toInt_le_zero_iff]; omega)]
    rfl
  | cons b pre ih =>
    intro off base
    have hsum : lengths (b :: pre) = b.sz.toNat + lengths pre := List.sum_cons
    show content (pre ++ a :: post) (off + b.sz.toNat) (put base off b) _ = _
    rw [hsum, ← Nat.add_assoc, ih, put_ge (Nat.le_add_right _ _)]

-- ======== the result

theorem sound_held {n : Nat} {base : Nat → Byte} {bytes : List Byte}
    (hn : n ≤ cap.toNat) : Sound (held cap n base) bytes ↔ (List.range n).map base = bytes := by
  have hsize : (BitVec.ofNat 32 n).toNat = n := by
    rw [BitVec.toNat_ofNat, Nat.mod_eq_of_lt (by have := cap.isLt; omega)]
  constructor
  · rintro ⟨b, blk, hb, hblk, -, -, hbytes⟩
    cases hb
    cases hblk
    rw [← hbytes]
    show _ = (List.range (BitVec.ofNat 32 n).toNat).map base
    rw [hsize]
  · intro hbytes
    refine ⟨0, _, rfl, rfl, ?_, rfl, ?_⟩
    · show BitVec.ofNat 32 n ≤ cap
      rw [BitVec.le_def, hsize]
      exact hn
    · show (List.range (BitVec.ofNat 32 n).toNat).map base = bytes
      rw [hsize, hbytes]

/-- All calls return 0, write inside the block and leave the array as it
should be, whatever the block held at first, exactly when the first
`malloc` succeeded, the strings fit into the first block, and none has
two gigabytes or more. -/
theorem dyn_arr_sound_iff (cap : Word) (args : List Arg) (grants : Nat → Bool) :
    (∀ junk, ∃ s, run grants junk cap args = .ok s ∧ Sound s (args.flatMap Arg.bytes))
    ↔ grants 0 = true ∧ lengths args ≤ cap.toNat ∧ ∀ a ∈ args, a.sz.toNat < 2 ^ 31 := by
  constructor
  · intro hall
    -- contents that differ from the strings wherever they are left alone
    obtain ⟨s, hrun, hsound⟩ := hall fun j => ~~~ (args.flatMap Arg.bytes).getD j 0
    obtain ⟨hdata, hmax⟩ := foldlM_fields hrun
    have hgrant : grants 0 = true := by
      by_contra hno
      obtain ⟨b, blk, hb, -⟩ := hsound
      rw [hdata] at hb
      unfold makeDynArr malloc at hb
      rw [if_neg hno] at hb
      cases hb
    have hfit : lengths args ≤ cap.toNat := by
      obtain ⟨b, blk, -, -, hle, -, hbytes⟩ := hsound
      have hlen := congrArg List.length hbytes
      rw [List.length_map, List.length_range, length_flatMap_bytes] at hlen
      have hmax' : s.arr.maxSz = cap := hmax
      rw [hmax', BitVec.le_def] at hle
      omega
    refine ⟨hgrant, hfit, fun a ha => ?_⟩
    by_contra hlong
    obtain ⟨pre, post, rfl⟩ := List.append_of_mem ha
    rw [run_content hgrant hfit, Except.ok.injEq] at hrun
    rw [← hrun, sound_held hfit] at hsound
    have hsum : lengths (pre ++ a :: post) = lengths pre + (a.sz.toNat + lengths post) := by
      simp [lengths]
    have hkept := content_long pre post (Nat.le_of_not_lt hlong) 0
      fun j => ~~~ ((pre ++ a :: post).flatMap Arg.bytes).getD j 0
    rw [Nat.zero_add] at hkept
    have hat := congrArg (·.getD (lengths pre) 0) hsound
    rw [List.getD_eq_getElem?_getD, List.getElem?_map, List.getElem?_range (by omega)] at hat
    have hne : ∀ x : Byte, ~~~ x ≠ x := by decide +kernel
    exact hne _ (hkept.symm.trans hat)
  · rintro ⟨hgrant, hfit, hshort⟩ junk
    refine ⟨_, run_content hgrant hfit, ?_⟩
    rw [sound_held hfit, ← content_short 0 junk hshort]
    simp only [Nat.zero_add]

/-- An array for two bytes, and a string of three: a new block is
allocated, and the string is written over the end of the old one. -/
theorem dyn_arr_writes_outside :
    run (fun _ => true) (fun _ => 0) 2 [⟨fun _ => 1, 3⟩] = .error .outside := by
  rfl

end Xv6Sume32.Sume.DynArr
