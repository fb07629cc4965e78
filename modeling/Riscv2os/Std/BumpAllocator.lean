import Mathlib.Tactic

/-!
# Bump allocation

An allocator that gives out numbers in order and takes none back. `Bump own low next` says that the numbers
from `low` up to `next` are given out, each to exactly one owner.
-/

namespace Riscv2os.Std

universe u

/-- Every number from `low` up to `next` has exactly one owner, and nobody owns another number. -/
structure Bump {ι : Type u} (own : ι → Option Nat) (low next : Nat) : Prop where
  ordered : low ≤ next
  bounds : ∀ i b, own i = some b → low ≤ b ∧ b < next
  injective : ∀ i j b, own i = some b → own j = some b → i = j
  onto : ∀ b, low ≤ b → b < next → ∃ i, own i = some b

namespace Bump

variable {ι : Type u} {own : ι → Option Nat} {low next : Nat}

/-- At first nothing is given out. -/
theorem start (ι : Type u) (low : Nat) : Bump (fun _ : ι => none) low low where
  ordered := le_refl low
  bounds _ _ := nofun
  injective _ _ _ := nofun
  onto _ low high := absurd high (Nat.not_lt.mpr low)

/-- The next number is given to somebody who owns none. -/
theorem take [DecidableEq ι] {i : ι} (bump : Bump own low next) (none : own i = none) :
    Bump (Function.update own i (some next)) low (next + 1) where
  ordered := Nat.le_succ_of_le bump.ordered
  bounds j b owned := by
    by_cases this : j = i
    · subst this
      rw [Function.update_self] at owned
      cases owned
      exact ⟨bump.ordered, Nat.lt_succ_self _⟩
    · rw [Function.update_of_ne this] at owned
      obtain ⟨above, below⟩ := bump.bounds j b owned
      exact ⟨above, Nat.lt_succ_of_lt below⟩
  injective j k b first second := by
    by_cases thisJ : j = i
    · by_cases thisK : k = i
      · exact thisJ.trans thisK.symm
      · subst thisJ
        rw [Function.update_self] at first
        rw [Function.update_of_ne thisK] at second
        cases first
        exact absurd (bump.bounds k _ second).2 (lt_irrefl _)
    · rw [Function.update_of_ne thisJ] at first
      by_cases thisK : k = i
      · subst thisK
        rw [Function.update_self] at second
        cases second
        exact absurd (bump.bounds j _ first).2 (lt_irrefl _)
      · rw [Function.update_of_ne thisK] at second
        exact bump.injective j k b first second
  onto b above below := by
    by_cases last : b = next
    · exact ⟨i, by rw [Function.update_self, last]⟩
    · obtain ⟨j, owned⟩ := bump.onto b above (by omega)
      have other : j ≠ i := by
        rintro rfl
        rw [none] at owned
        cases owned
      exact ⟨j, by rw [Function.update_of_ne other, owned]⟩

end Bump

end Riscv2os.Std
