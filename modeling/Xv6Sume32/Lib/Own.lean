/-
Resources with one holder each.

`holds a k` says that `a` holds `k`, and `used` are the resources that are
not free. `Exclusive` is what an allocator owes its clients: nobody holds
what another holds, or what is free. The rules say how it survives a
resource being taken, given back, let go of or handed on.
-/
import Mathlib.Tactic

namespace Xv6Sume32.Lib

variable {H K : Type}

structure Exclusive (holds : H → K → Prop) (used : K → Prop) : Prop where
  one : ∀ {a b k}, holds a k → holds b k → a = b
  used : ∀ {a k}, holds a k → used k

variable {holds holds' : H → K → Prop} {used used' : K → Prop}

/-- Holders may let go, and free resources may be taken by strangers. -/
theorem Exclusive.mono (h : Exclusive holds used) (hs : ∀ a k, holds' a k → holds a k)
    (hu : ∀ a k, holds' a k → used k → used' k) : Exclusive holds' used' where
  one := fun ha hb => h.one (hs _ _ ha) (hs _ _ hb)
  used := fun ha => hu _ _ ha (h.used (hs _ _ ha))

/-- A free resource is taken by one holder. -/
theorem Exclusive.take (h : Exclusive holds used) {a : H} {k : K} (hk : ¬ used k)
    (hs : ∀ b j, holds' b j → holds b j ∨ (b = a ∧ j = k)) (hu : used' k)
    (hkeep : ∀ j, used j → used' j) : Exclusive holds' used' where
  one := by
    intro b c j hb hc
    rcases hs _ _ hb with hb | ⟨rfl, rfl⟩
    · rcases hs _ _ hc with hc | ⟨rfl, rfl⟩
      · exact h.one hb hc
      · exact absurd (h.used hb) hk
    · rcases hs _ _ hc with hc | ⟨rfl, -⟩
      · exact absurd (h.used hc) hk
      · rfl
  used := by
    intro b j hb
    rcases hs _ _ hb with hb | ⟨-, rfl⟩
    · exact hkeep _ (h.used hb)
    · exact hu

/-- A resource is given back by the one who held it. -/
theorem Exclusive.drop (h : Exclusive holds used) {a : H} {k : K} (ha : holds a k)
    (hs : ∀ b j, holds' b j → holds b j ∧ b ≠ a)
    (hkeep : ∀ j, j ≠ k → used j → used' j) : Exclusive holds' used' where
  one := fun hb hc => h.one (hs _ _ hb).1 (hs _ _ hc).1
  used := by
    intro b j hb
    obtain ⟨hb, hne⟩ := hs _ _ hb
    refine hkeep j ?_ (h.used hb)
    rintro rfl
    exact hne (h.one hb ha)

/-- A resource goes from whoever holds it to another. -/
theorem Exclusive.move (h : Exclusive holds used) {a : H} {k : K} (hk : used k)
    (hs : ∀ b j, holds' b j → (holds b j ∧ j ≠ k) ∨ (b = a ∧ j = k)) :
    Exclusive holds' used where
  one := by
    intro b c j hb hc
    rcases hs _ _ hb with ⟨hb, hj⟩ | ⟨rfl, rfl⟩
    · rcases hs _ _ hc with ⟨hc, -⟩ | ⟨-, rfl⟩
      · exact h.one hb hc
      · exact absurd rfl hj
    · rcases hs _ _ hc with ⟨-, hj⟩ | ⟨rfl, -⟩
      · exact absurd rfl hj
      · rfl
  used := by
    intro b j hb
    rcases hs _ _ hb with ⟨hb, -⟩ | ⟨-, rfl⟩
    · exact h.used hb
    · exact hk

end Xv6Sume32.Lib
