/-
The console's input (`console.c`): what is typed, and who reads it.

# Steps

A character that `consoleintr` gets is one step, and so is a round of the
loop of `consoleread`; `cons.lock` makes stretches of them one, so there
are more interleavings here than in the kernel. A reader that finds nothing
committed is asleep: it takes no step. What is echoed and the listing of
processes are left out.

# History

`committed` and `taken` are not variables of the program. The first has the
characters that `w` has moved over, the second what the readers have got:
the bytes, and a ^D where a call has returned nothing because of it.

# What holds

The cells from `r` to `e` are the committed characters that have not been
taken and the line that is typed (`Holds`). Editing takes from the end of
the line.
-/
import Xv6Sume32.Lib.Bytes
import Xv6Sume32.Lib.Ring
import Xv6Sume32.Lib.System

namespace Xv6Sume32.Console

open Lib

/-- `INPUT_BUF`. -/
def inputBuf : Nat := 128

structure Input where
  buf : Nat → Byte
  r : Word
  w : Word
  e : Word

/-- `C(x)`. -/
def ctrl (x : Char) : Byte := BitVec.ofNat 8 (x.toNat - '@'.toNat)

def newline : Byte := 10

namespace Input

variable (i : Input)

/-- The cell of a count. -/
def at_ (k : Word) : Byte := i.buf (k.toNat % inputBuf)

/-- `input.buf[input.e++ % INPUT_BUF] = c`. -/
def store (c : Byte) : Input :=
  { i with buf := Function.update i.buf (i.e.toNat % inputBuf) c, e := i.e + 1 }

def erase : Input := { i with e := i.e - 1 }

/-- The loop for ^U, as often as there are characters since `w`. -/
def killLine : Nat → Input → Input
  | 0, i => i
  | n + 1, i => if i.e ≠ i.w ∧ i.at_ (i.e - 1) ≠ newline then killLine n i.erase else i

/-- A character in `consoleintr`. -/
def key (c : Byte) : Input :=
  if c = ctrl 'P' then i
  else if c = ctrl 'U' then killLine (i.e - i.w).toNat i
  else if c = ctrl 'H' ∨ c = 0x7F then if i.e ≠ i.w then i.erase else i
  else if c ≠ 0 ∧ (i.e - i.r).toNat < inputBuf then
    let c := if c = 13 then newline else c
    let i := i.store c
    if c = newline ∨ c = ctrl 'D' ∨ i.e = i.r + BitVec.ofNat 32 inputBuf then { i with w := i.e }
    else i
  else i

/-- The characters between two counts. -/
def between (a b : Word) : List Byte :=
  (List.range (b - a).toNat).map fun k => i.at_ (a + BitVec.ofNat 32 k)

end Input

/-- A call of `consoleread`: `n` and `target`. -/
structure Call where
  n : Nat
  target : Nat

/-- A round of the loop in which there is a character: the input, what the
reader gets, and the call if it goes on. -/
def Input.round (i : Input) (k : Call) : Input × List Byte × Option Call :=
  let c := i.at_ i.r
  let next := { i with r := i.r + 1 }
  if c = ctrl 'D' then if k.n < k.target then (i, [], none) else (next, [c], none)
  else (next, [c], if c = newline ∨ k.n = 1 then none else some { k with n := k.n - 1 })

structure State (P : Type) where
  input : Input
  calls : P → Option Call
  committed : List Byte
  taken : List Byte

inductive Event (P : Type)
  | key (c : Byte)
  | read (p : P) (n : Int)
  | round (p : P)

variable {P : Type} [DecidableEq P]

def step (ev : Event P) (s : State P) : Option (State P) :=
  match ev with
  | .key c =>
      let i := s.input.key c
      some { s with input := i, committed := s.committed ++ i.between s.input.w i.w }
  | .read p n =>
      match s.calls p with
      | some _ => none
      | none =>
          if n ≤ 0 then some s
          else some { s with calls := Function.update s.calls p (some ⟨n.toNat, n.toNat⟩) }
  | .round p =>
      match s.calls p with
      | none => none
      | some k =>
          if s.input.r = s.input.w then none
          else
            match s.input.round k with
            | (i, got, k) =>
                some { s with
                  input := i
                  calls := Function.update s.calls p k
                  taken := s.taken ++ got }

/-- Before anything has been typed. -/
def fresh (s : State P) : Prop :=
  ∃ buf, s = ⟨⟨buf, 0, 0, 0⟩, fun _ => none, [], []⟩

-- ======== the buffer

/-- The committed characters that are there, and the line. -/
structure Holds (i : Input) (q l : List Byte) : Prop where
  cells : Queued inputBuf i.buf i.r i.e (q ++ l)
  line : i.w = i.r + BitVec.ofNat 32 q.length

section Holds

variable {i j : Input} {q q' l : List Byte} {x : Byte}

theorem inputBuf_lt : inputBuf < 2 ^ 32 := by decide

/-- What is between `w` and `e`. -/
theorem Holds.typed (h : Holds i q l) : Queued inputBuf i.buf i.w i.e l := h.line ▸ h.cells.back

/-- What is between `r` and `w`. -/
theorem Holds.ready (h : Holds i q l) : Queued inputBuf i.buf i.r i.w q := h.line ▸ h.cells.front

theorem Holds.erase (h : Holds i q (l ++ [x])) : Holds i.erase q l := by
  have hc := h.cells
  rw [← List.append_assoc] at hc
  have he : i.e - 1 = i.r + BitVec.ofNat 32 (q ++ l).length := by
    rw [hc.tail, List.length_append, List.length_singleton, BitVec.ofNat_add, ← BitVec.add_assoc]
    exact BitVec.add_sub_cancel _ _
  refine ⟨?_, h.line⟩
  show Queued inputBuf i.buf i.r (i.e - 1) (q ++ l)
  rw [he]
  exact hc.front

/-- A line that is not empty loses its last character. -/
theorem Holds.erase_of_ne (h : Holds i q l) (hne : i.e ≠ i.w) : ∃ l', Holds i.erase q l' := by
  rcases List.eq_nil_or_concat l with rfl | ⟨l', x, rfl⟩
  · exact absurd ((h.typed.empty_iff inputBuf_lt).2 rfl).symm hne
  · rw [List.concat_eq_append] at h
    exact ⟨l', h.erase⟩

theorem Holds.killLine (h : Holds i q l) (n : Nat) :
    ∃ l', Holds (i.killLine n) q l' ∧ (i.killLine n).r = i.r := by
  induction n generalizing i l with
  | zero => exact ⟨l, h, rfl⟩
  | succ n ih =>
    unfold Input.killLine
    split
    · next hgo =>
      obtain ⟨l', h'⟩ := h.erase_of_ne hgo.1
      exact ih h'
    · exact ⟨l, h, rfl⟩

theorem Holds.store (h : Holds i q l) (hlt : (i.e - i.r).toNat < inputBuf) (c : Byte) :
    Holds (i.store c) q (l ++ [c]) := by
  refine ⟨?_, h.line⟩
  rw [h.cells.distance inputBuf_lt] at hlt
  rw [← List.append_assoc]
  exact h.cells.push (by decide) hlt

/-- `input.w = input.e`. -/
theorem Holds.commit (h : Holds i q l) : Holds { i with w := i.e } (q ++ l) [] :=
  ⟨by rw [List.append_nil]; exact h.cells, h.cells.tail⟩

/-- A character leaves what is committed as it is, and may commit the
line. -/
theorem Holds.key (h : Holds i q l) (c : Byte) :
    ∃ a l', Holds (i.key c) (q ++ a) l' ∧ (i.key c).r = i.r := by
  have hsame : ∃ a l', Holds i (q ++ a) l' ∧ i.r = i.r := ⟨[], l, by rwa [List.append_nil], rfl⟩
  unfold Input.key
  split
  · exact hsame
  split
  · obtain ⟨l', h', hr⟩ := h.killLine (i.e - i.w).toNat
    exact ⟨[], l', by rwa [List.append_nil], hr⟩
  split
  · split
    · next hne =>
      obtain ⟨l', h'⟩ := h.erase_of_ne hne
      exact ⟨[], l', by rwa [List.append_nil], rfl⟩
    · exact hsame
  split
  · next hlt =>
    dsimp only
    generalize (if c = 13 then newline else c) = c'
    have hs := h.store hlt.2 c'
    split
    · exact ⟨_, [], hs.commit, rfl⟩
    · exact ⟨[], _, by rwa [List.append_nil], rfl⟩
  · exact hsame

/-- What `w` has moved over. -/
theorem Holds.between (h : Holds i q l) {a l' : List Byte} (h' : Holds j (q ++ a) l')
    (hr : j.r = i.r) : j.between i.w j.w = a := by
  have ha : Queued inputBuf j.buf i.w j.w a := by
    rw [h.line, ← hr]
    exact h'.ready.back
  exact ha.cells inputBuf_lt

/-- The next character is taken. -/
theorem Holds.take (h : Holds i (x :: q) l) :
    i.at_ i.r = x ∧ Holds { i with r := i.r + 1 } q l := by
  obtain ⟨hx, hc⟩ := h.cells.pop
  refine ⟨hx, hc, ?_⟩
  show i.w = _
  rw [h.line, List.length_cons, Nat.add_comm, BitVec.ofNat_add, ← BitVec.add_assoc]
  rfl

end Holds

-- ======== the runs

/-- What has been committed has been taken or is there. -/
def Fifo (s : State P) : Prop := ∃ q l, Holds s.input q l ∧ s.committed = s.taken ++ q

theorem Fifo.step {ev : Event P} {s t : State P} (h : Fifo s) (hs : step ev s = some t) :
    Fifo t := by
  obtain ⟨q, l, hq, hc⟩ := h
  cases ev with
  | key c =>
    cases hs
    obtain ⟨a, l', h', hr⟩ := hq.key c
    refine ⟨q ++ a, l', h', ?_⟩
    show s.committed ++ _ = s.taken ++ (q ++ a)
    rw [hq.between h' hr, hc, List.append_assoc]
  | read p n =>
    unfold Console.step at hs
    dsimp only at hs
    split at hs
    · cases hs
    · split at hs <;> cases hs <;> exact ⟨q, l, hq, hc⟩
  | round p =>
    unfold Console.step at hs
    dsimp only at hs
    split at hs
    · cases hs
    split at hs
    · cases hs
    next k _ hne =>
    cases q with
    | nil => exact absurd ((hq.ready.empty_iff inputBuf_lt).2 rfl) hne
    | cons x q =>
      obtain ⟨hx, h'⟩ := hq.take
      -- a ^D that is put back, a ^D, and a byte
      have hround : (s.input.round k).1 = s.input ∧ (s.input.round k).2.1 = [] ∨
          (s.input.round k).1 = { s.input with r := s.input.r + 1 } ∧
            (s.input.round k).2.1 = [x] := by
        unfold Input.round
        rw [hx]
        dsimp only
        split
        · split
          · exact Or.inl ⟨rfl, rfl⟩
          · exact Or.inr ⟨rfl, rfl⟩
        · exact Or.inr ⟨rfl, rfl⟩
      cases hs
      rcases hround with ⟨hi, hgot⟩ | ⟨hi, hgot⟩
      · refine ⟨x :: q, l, ?_, ?_⟩
        · rwa [hi]
        · rw [hgot, List.append_nil]
          exact hc
      · refine ⟨q, l, ?_, ?_⟩
        · rwa [hi]
        · rw [hgot, List.append_assoc]
          exact hc

theorem Fifo.reach {s : State P} (h : Reach Console.step fresh s) : Fifo s := by
  refine h.invariant (fun s hs => ?_) fun ev s t hf hs => hf.step hs
  obtain ⟨buf, rfl⟩ := hs
  exact ⟨[], [], ⟨.nil, rfl⟩, rfl⟩

end Xv6Sume32.Console
