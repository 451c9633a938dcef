/-
Pages and page tables (`kalloc.c`, `vm.c`).

# Memory

A page of physical memory has a number. `free` is the list that starts at
`kmem.freelist`; the list itself runs through the pages on it, whose first
word is the address of the next one. `mem` is what the pages hold. What is
in the pages of page tables, kernel stacks and pipes is kept apart from
it, as values of their own.

# Page tables

A page directory is its page, the pages of its page tables, and the
entries that are present below `KERNBASE`, by page number. The entries for
the kernel are the same in every page table; of them only the pages of
their page tables are kept. Sizes and addresses are below 2^32, and loops
that go over multiples of `PGSIZE` go over page numbers here.

# Errors

`VmPanic` is where the kernel ends: calls of `panic`, and faults in kernel
mode, which `trap` answers with one. Two are not calls of `panic`.
`doubleFree` is where `kfree` is called for a page that is free, which it
does not notice; `nullPte` is where `uva2ka` follows a null pointer, and
what comes then is not modelled.

# Allocation

`kalloc` fails when there is no page. It may also fail earlier, because
other processors take pages: `limit` is how many more calls succeed.
-/
import Xv6Sume32.Lib.Bytes
import Xv6Sume32.Lib.Loop
import Xv6Sume32.Lib.Splice

namespace Xv6Sume32.Vm

open Lib

-- ======== constants

/-- `PGSIZE`. -/
def pgsize : Nat := 4096

/-- `NPDENTRIES` and `NPTENTRIES`. -/
def npt : Nat := 1024

/-- `KERNBASE`. -/
def kernbase : Nat := 0x80000000

/-- `PHYSTOP`. -/
def phystop : Nat := 0xE000000

/-- `DEVSPACE`. -/
def devspace : Nat := 0xFE000000

/-- The number of pages below an address, the last of them in part. -/
def npages (sz : Nat) : Nat := (sz + (pgsize - 1)) / pgsize

/-- `PGROUNDUP`, in 32 bits. -/
def pgroundup (n : Nat) : Nat := (n + (pgsize - 1)) % 2 ^ 32 / pgsize * pgsize

inductive VmPanic
  | kfree
  | doubleFree
  | remap
  | noPte
  | notPresent
  | clearpteu
  | loaduvm
  | nullPte
  | fault
  | noMemory
  | filedup
  | fileclose
  | initExiting
deriving DecidableEq

-- ======== kalloc

/-- The bytes of a page. -/
abbrev Page := Nat → Byte

/-- The kernel's address of a page. -/
def p2v (f : Nat) : Word := BitVec.ofNat 32 (kernbase + pgsize * f)

/-- A page as `kfree` leaves it. -/
def linkPage (next : Option Nat) : Page := fun o =>
  if o < 4 then byteOf ((next.map p2v).getD 0) o else 1

structure Kmem where
  first : Nat
  top : Nat
  free : List Nat
  mem : Nat → Page
  limit : Nat

namespace Kmem

variable (m : Kmem)

def write (f : Nat) (page : Page) : Kmem := { m with mem := Function.update m.mem f page }

def kalloc : Option (Nat × Kmem) :=
  match m.limit, m.free with
  | limit + 1, f :: free => some (f, { m with free := free, limit := limit })
  | _, _ => none

def kfree (f : Nat) : Except VmPanic Kmem :=
  if f < m.first ∨ m.top ≤ f then .error .kfree
  else if f ∈ m.free then .error .doubleFree
  else .ok { m.write f (linkPage m.free.head?) with free := f :: m.free }

/-- `freerange` of `n` pages from `f` on. -/
def freerange (f n : Nat) : Except VmPanic Kmem := (List.range' f n).foldlM kfree m

end Kmem

-- ======== page tables

/-- An entry that is present: its page, `PTE_W` and `PTE_U`. -/
structure Pte where
  frame : Nat
  w : Bool
  u : Bool
deriving DecidableEq

structure Pgdir where
  frame : Nat
  tables : Nat → Option Nat
  ptes : Nat → Option Pte

/-- `walkpgdir` with `alloc`; nothing when there is no page for the page
table. -/
def walkpgdir (m : Kmem) (pd : Pgdir) (v : Nat) : Option (Kmem × Pgdir) :=
  match pd.tables (v / npt) with
  | some _ => some (m, pd)
  | none =>
      match m.kalloc with
      | none => none
      | some (f, m) =>
          some (m.write f fun _ => 0,
            { pd with
              tables := Function.update pd.tables (v / npt) (some f)
              ptes := fun u => if u / npt = v / npt then none else pd.ptes u })

/-- `mappages` for one page. -/
def mappages (m : Kmem) (pd : Pgdir) (v : Nat) (e : Pte) :
    Except VmPanic (Option (Kmem × Pgdir)) :=
  match walkpgdir m pd v with
  | none => .ok none
  | some (m, pd) =>
      if (pd.ptes v).isSome then .error .remap
      else .ok (some (m, { pd with ptes := Function.update pd.ptes v (some e) }))

/-- The loop of `deallocuvm`, up to the page `last`. -/
def deallocLoop (last : Nat) : Nat → Nat → Kmem → Pgdir → Except VmPanic (Kmem × Pgdir)
  | 0, _, m, pd => .ok (m, pd)
  | fuel + 1, v, m, pd =>
      if v < last then
        match pd.tables (v / npt) with
        | none => deallocLoop last fuel ((v / npt + 1) * npt) m pd
        | some _ =>
            match pd.ptes v with
            | none => deallocLoop last fuel (v + 1) m pd
            | some e => do
                let m ← m.kfree e.frame
                deallocLoop last fuel (v + 1) m
                  { pd with ptes := Function.update pd.ptes v none }
      else .ok (m, pd)

def deallocuvm (m : Kmem) (pd : Pgdir) (oldsz newsz : Nat) :
    Except VmPanic (Nat × Kmem × Pgdir) :=
  if oldsz ≤ newsz then .ok (oldsz, m, pd)
  else do
    let (m, pd) ← deallocLoop (npages oldsz) (npages oldsz) (npages newsz) m pd
    .ok (newsz, m, pd)

def freevm (m : Kmem) (pd : Pgdir) : Except VmPanic Kmem := do
  let (_, m, pd) ← deallocuvm m pd kernbase 0
  let m ← (List.range npt).foldlM (fun m d =>
    match pd.tables d with
    | some f => m.kfree f
    | none => .ok m) m
  m.kfree pd.frame

/-- The page tables for the mappings in `kmap`: from `KERNBASE` to
`PHYSTOP`, and from `DEVSPACE` on. -/
def kmapDirs : List Nat :=
  List.range' (kernbase / pgsize / npt) (phystop / pgsize / npt) ++
    List.range' (devspace / pgsize / npt) ((2 ^ 32 - devspace) / pgsize / npt)

def kmapLoop : List Nat → Kmem → Pgdir → Except VmPanic (Kmem × Option Pgdir)
  | [], m, pd => .ok (m, some pd)
  | d :: ds, m, pd =>
      match walkpgdir m pd (npt * d) with
      | none => do
          let m ← freevm m pd
          .ok (m, none)
      | some (m, pd) => kmapLoop ds m pd

def setupkvm (m : Kmem) : Except VmPanic (Kmem × Option Pgdir) :=
  match m.kalloc with
  | none => .ok (m, none)
  | some (f, m) => kmapLoop kmapDirs (m.write f fun _ => 0) ⟨f, fun _ => none, fun _ => none⟩

-- ======== growing

/-- The loop of `allocuvm` and `allocxuvm`. `fill` is what a new page is
given, `w` whether it may be written to. -/
def growLoop (w : Bool) (fill : Nat → Nat → Kmem → Pgdir → Except VmPanic Page)
    (oldsz newsz : Nat) : Nat → Nat → Kmem → Pgdir → Except VmPanic (Bool × Kmem × Pgdir)
  | 0, _, m, pd => .ok (true, m, pd)
  | n + 1, i, m, pd =>
      match m.kalloc with
      | none => do
          let (_, m, pd) ← deallocuvm m pd newsz oldsz
          .ok (false, m, pd)
      | some (f, m) => do
          let page ← fill i f m pd
          match ← mappages (m.write f page) pd (npages oldsz + i) ⟨f, w, true⟩ with
          | none => do
              let (_, m, pd) ← deallocuvm (m.write f page) pd newsz oldsz
              let m ← m.kfree f
              .ok (false, m, pd)
          | some (m, pd) => growLoop w fill oldsz newsz n (i + 1) m pd

/-- The two functions around the loop: the new size, or 0. -/
def grow (w : Bool) (fill : Nat → Nat → Kmem → Pgdir → Except VmPanic Page) (m : Kmem)
    (pd : Pgdir) (oldsz newsz : Nat) : Except VmPanic (Nat × Kmem × Pgdir) :=
  if kernbase ≤ newsz then .ok (0, m, pd)
  else if newsz < oldsz then .ok (oldsz, m, pd)
  else do
    let (done, m, pd) ← growLoop w fill oldsz newsz (npages newsz - npages oldsz) 0 m pd
    .ok (if done then newsz else 0, m, pd)

def allocuvm (m : Kmem) (pd : Pgdir) (oldsz newsz : Nat) : Except VmPanic (Nat × Kmem × Pgdir) :=
  grow true (fun _ _ _ _ => .ok fun _ => 0) m pd oldsz newsz

/-- A byte that the kernel reads while a page table is in use. -/
def Kmem.load (m : Kmem) (pd : Pgdir) (va : Nat) : Option Byte :=
  if va < kernbase then (pd.ptes (va / pgsize)).map fun e => m.mem e.frame (va % pgsize)
  else if va - kernbase < phystop then some (m.mem ((va - kernbase) / pgsize) (va % pgsize))
  else if devspace ≤ va then some (m.mem (va / pgsize) (va % pgsize))
  else none

/-- `memmove` of `n` bytes at `val` to the start of a page. -/
def movein (m : Kmem) (pd : Pgdir) (val n : Nat) (old : Page) : Except VmPanic Page :=
  if ∀ o, o < n → (m.load pd ((val + o) % 2 ^ 32)).isSome then
    .ok fun o => if o < n then (m.load pd ((val + o) % 2 ^ 32)).getD 0 else old o
  else .error .fault

def allocxuvm (m : Kmem) (pd : Pgdir) (oldsz newsz val : Nat) (valn : Int) :
    Except VmPanic (Nat × Kmem × Pgdir) :=
  grow false (fun i f m pd =>
    movein m pd (val + pgsize * i) (min pgsize (valn - pgsize * i).toNat) (m.mem f))
    m pd oldsz newsz

-- ======== copying

def clearpteu (pd : Pgdir) (v : Nat) : Except VmPanic Pgdir :=
  match pd.tables (v / npt) with
  | none => .error .clearpteu
  | some _ =>
      .ok { pd with
        ptes := Function.update pd.ptes v ((pd.ptes v).map fun e => { e with u := false }) }

/-- The loop of `copyuvm`. -/
def copyLoop (pgdir : Pgdir) : Nat → Nat → Kmem → Pgdir → Except VmPanic (Kmem × Option Pgdir)
  | 0, _, m, d => .ok (m, some d)
  | n + 1, v, m, d =>
      match pgdir.tables (v / npt), pgdir.ptes v with
      | none, _ => .error .noPte
      | some _, none => .error .notPresent
      | some _, some e =>
          match m.kalloc with
          | none => do
              let m ← freevm m d
              .ok (m, none)
          | some (f, m) => do
              match ← mappages (m.write f (m.mem e.frame)) d v { e with frame := f } with
              | none => do
                  let m ← freevm (m.write f (m.mem e.frame)) d
                  .ok (m, none)
              | some (m, d) => copyLoop pgdir n (v + 1) m d

def copyuvm (m : Kmem) (pgdir : Pgdir) (sz : Nat) : Except VmPanic (Kmem × Option Pgdir) := do
  match ← setupkvm m with
  | (m, none) => .ok (m, none)
  | (m, some d) => copyLoop pgdir (npages sz) 0 m d

/-- `uva2ka`: the page of an address, if it is the user's. -/
def uva2ka (pd : Pgdir) (va : Nat) : Except VmPanic (Option Nat) :=
  match pd.tables (va / pgsize / npt) with
  | none => .error .nullPte
  | some _ =>
      match pd.ptes (va / pgsize) with
      | some e => .ok (if e.u then some e.frame else none)
      | none => .ok none

/-- The loop of `copyout`; nothing when it fails. -/
def copyout (pd : Pgdir) : Nat → Nat → List Byte → Kmem → Except VmPanic (Kmem × Bool)
  | 0, _, _, m => .ok (m, true)
  | fuel + 1, va, buf, m =>
      if buf = [] then .ok (m, true)
      else do
        match ← uva2ka pd va with
        | none => .ok (m, false)
        | some f =>
            let n := min buf.length (pgsize - va % pgsize)
            copyout pd fuel ((va / pgsize + 1) * pgsize % 2 ^ 32) (buf.drop n)
              (m.write f (overwrite (m.mem f) (va % pgsize) (buf.take n)))

/-- `readi` of `n` bytes; nothing when there are fewer, and then nothing
is written: `exec` frees the pages anyway. -/
def readi (file : List Byte) (off n : Nat) : Option (List Byte) :=
  if off + n ≤ file.length then some ((file.drop off).take n) else none

/-- The loop of `loaduvm`, from byte `i` of the segment on. An entry that
is not present is 0, the address of page 0. -/
def loadLoop (file : List Byte) (pd : Pgdir) (addr offset sz : Nat) :
    Nat → Nat → Kmem → Except VmPanic (Kmem × Bool)
  | 0, _, m => .ok (m, true)
  | n + 1, i, m =>
      match pd.tables ((addr + i) / pgsize / npt) with
      | none => .error .loaduvm
      | some _ =>
          let f := ((pd.ptes ((addr + i) / pgsize)).map (·.frame)).getD 0
          match readi file ((offset + i) % 2 ^ 32) (min pgsize (sz - i)) with
          | none => .ok (m, false)
          | some bytes =>
              loadLoop file pd addr offset sz n (i + pgsize)
                (m.write f (overwrite (m.mem f) 0 bytes))

def loaduvm (m : Kmem) (pd : Pgdir) (addr : Nat) (file : List Byte) (offset sz : Nat) :
    Except VmPanic (Kmem × Bool) :=
  if addr % pgsize ≠ 0 then .error .loaduvm
  else loadLoop file pd addr offset sz (npages sz) 0 m

end Xv6Sume32.Vm
