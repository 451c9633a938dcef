/-
The loader of `exec` on any file.

The headers of a file say where its segments go, and nothing holds for
them. The size is what `allocuvm` has made of the segments so far, and a
segment is loaded only below it, so every page that `loaduvm` comes to is
there; it is the page of the new page table for that address, since the
bytes are found there (`fileBytes`).
-/
import Xv6Sume32.Vm.Proofs.Copyout

namespace Xv6Sume32.Vm

open Lib

variable {R : Nat → Prop} {m m₁ : Kmem} {pd : Pgdir}

/-- After the segments: the pages below the size are there, and have the
bytes of the file; nobody else finds a change. -/
def SegmentsLoaded (R : Nat → Prop) (file : List Byte) (elf : Elfhdr) (m : Kmem) :
    Except VmPanic (Kmem × Pgdir × Option Nat) → Prop
  | .error _ => False
  | .ok (m', _, none) => Keeps R m m'
  | .ok (m', pd, some sz) => Keeps R m m' ∧ Present pd sz ∧ ∀ va, va / pgsize < npages sz →
      m'.load pd va = some (fileBytes file elf.phnum elf.phoff (fun _ => 0) va)

/-- At the end: of the panics only the one of `copyout` is left. -/
def ImageLoaded : Except VmPanic (Kmem × Pgdir × Option Nat) → Prop
  | .error e => e = .nullPte
  | .ok (_, _, none) => True
  | .ok (_, pd, some sz) => sz < kernbase ∧ ∀ u, u < npages sz → (pd.ptes u).isSome

theorem HasBytes.load {img : Nat → Byte} {sz : Nat} (h : HasBytes m pd sz img) (hp : Present pd sz)
    (hle : sz ≤ kernbase) {va : Nat} (hva : va / pgsize < npages sz) :
    m.load pd va = some (img va) := by
  obtain ⟨e, he⟩ := Option.isSome_iff_exists.1 ((hp _).2 hva)
  have hlow : va < kernbase := by
    have hpg : pgsize = 4096 := rfl
    have hb : kernbase = 0x80000000 := rfl
    unfold npages at hva
    rw [hpg] at hva
    omega
  rw [Kmem.load, if_pos hlow, he, Option.map_some,
    h.page _ e he _ (Nat.mod_lt va (by decide)), Nat.div_add_mod']

/-- The loader is safe on every file, whatever its headers say: it comes to
no panic of `loaduvm`, `mappages` or `clearpteu`, and what it loads is found
at the addresses it is meant for. -/
theorem loader_safe (h : Safe R m) (hset : setupkvm m = .ok (m₁, some pd)) (file : List Byte)
    (elf : Elfhdr) (argv : List (List Byte)) :
    SegmentsLoaded R file elf m₁ (segLoop file elf.phnum elf.phoff 0 m₁ pd) ∧
      ImageLoaded (loadImage file elf argv m₁ pd) := by
  obtain ⟨himg, -, hzero⟩ := Img.start h hset
  constructor
  · obtain ⟨m₂, pd₂, r, hr, -, hk, hdone⟩ := himg.segLoop file elf.phnum elf.phoff
    rw [hr]
    cases r with
    | none => exact hk
    | some sz =>
        obtain ⟨himg₂, hfill⟩ := hdone sz rfl
        exact ⟨hk, himg₂.present, fun va =>
          (hfill _ hzero).load himg₂.present himg₂.le⟩
  · have hload := himg.loadImage file elf argv
    match loadImage file elf argv m₁ pd, hload with
    | .error e, he => exact he.1
    | .ok (_, _, none), _ => trivial
    | .ok (_, pd₂, some sz), ⟨_, _, himg₂⟩ =>
        exact ⟨(himg₂ sz rfl).2, fun u => ((himg₂ sz rfl).1.present u).2⟩

/-- A header that asks for itself, all 32 bytes, at address 0. -/
def selfSegment : List Byte :=
  [1, 0, 0, 0] ++ List.replicate 12 0 ++ [32, 0, 0, 0, 32, 0, 0, 0] ++ List.replicate 8 0

theorem loader_safe_self : ∃ m₁ pd, setupkvm emptyMem = .ok (m₁, some pd) ∧
    SegmentsLoaded emptyMem.used selfSegment ⟨elfMagic, 0, 1⟩ m₁
      (segLoop selfSegment 1 0 0 m₁ pd) ∧
    ImageLoaded (loadImage selfSegment ⟨elfMagic, 0, 1⟩ [] m₁ pd) := by
  have hval : ((setupkvm emptyMem).toOption.bind Prod.snd).isSome := by decide +kernel
  match hr : setupkvm emptyMem with
  | .error e => rw [hr] at hval; cases hval
  | .ok (m₁, none) => rw [hr] at hval; cases hval
  | .ok (m₁, some pd) =>
      exact ⟨m₁, pd, rfl, loader_safe ⟨emptyMem_good, fun _ => id⟩ hr selfSegment _ []⟩

end Xv6Sume32.Vm
