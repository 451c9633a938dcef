/-
A write and its transaction (`filewrite` of `file.c`).

# The log

The functions whose names end in `Log` are the calls of `log_write` in
those of the model, in order: `balloc` logs the bitmap and the block that
it clears, `bmap` the index block that it enters a number in, `writei` the
data and, when the file has grown, the inode.

# How many blocks

A number in an inode or an index block stays, so a block that is logged on
the way to a data block is found on that way in the end (`mem_bmapLog`). A
chunk of `filewrite` touches four data blocks in a row, and the ways to
them lead through one first-level and two second-level index blocks.
-/
import Xv6Sume32.Fs.Mkfs
import Xv6Sume32.Fs.Proofs.Blocks

namespace Xv6Sume32.Fs

open Lib

variable {ps : List Pos} {off : Nat} {src : List Byte} {devsw : Nat → Option (List Byte → Int)}
    {r : Int}

/-- The blocks that are logged: of the bitmap, of the inode table, and the
others. -/
inductive Logged
  | bitmap (n : Nat)
  | inode (n : Nat)
  | block (b : Nat)
deriving DecidableEq

section Log

variable (sb : Superblock) (s : FsState)

end Log

section Blocks

variable {sb : Superblock} {s t u : FsState} {i bn x : Nat} {c : Logged}

/-- A block of the bitmap, or a block at one of the places. -/
def At (t : FsState) (i : Nat) (ps : List Pos) (c : Logged) : Prop :=
  c = .bitmap 0 ∨ ∃ p ∈ ps, c = .block (own t i p)

/-- What is filled, and stays. -/
theorem Fills.ok {p : Pos} (h : Owned sb s) (hf : Fills sb s i ps p (.ok (x, t))) :
    Extends sb i s t ∧ x = own t i p ∧ ∀ q ∈ ps, own t i q ≠ 0 := by
  rcases hf with ⟨u, hu, hg⟩ | ⟨hr, -⟩
  · cases hu
    exact ⟨hg.extends h, rfl, fun q hq => (hg.own_iff h).2 (Or.inr hq)⟩
  · cases hr

theorem At.extends (h : At s i ps c) (hne : ∀ p ∈ ps, own s i p ≠ 0)
    (he : Extends sb i s t) : At t i ps c :=
  h.imp_right fun ⟨p, hp, hc⟩ => ⟨p, hp, by rw [hc, he.old p (hne p hp)]⟩

end Blocks

end Xv6Sume32.Fs
