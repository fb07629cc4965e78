import Mathlib.Tactic

/-!
# Cells of a heap

A heap gives the content of each allocated address. `HoldsCells` says that these cells, at distinct addresses
other than `NULL`, are what is allocated, with these contents. The cells of two structures are put together by
adding them, and what a call does not touch is carried along.
-/

namespace Riscv2os.Std

universe u

variable {ν : Type u}

/-- `NULL` is 0. -/
abbrev Address := Nat

/-- The heap holds these cells. -/
structure HoldsCells (heap : Address → Option ν) (cells : Multiset (Address × ν)) : Prop where
  distinct : (cells.map Prod.fst).Nodup
  nonzero : ∀ cell ∈ cells, cell.1 ≠ 0
  content : ∀ cell ∈ cells, heap cell.1 = some cell.2
  all : ∀ a, heap a ≠ none → a ∈ cells.map Prod.fst

namespace HoldsCells

variable {heap : Address → Option ν} {cells more : Multiset (Address × ν)} {a b : Address} {x y : ν}

/-- Nothing is allocated. -/
theorem empty : HoldsCells (fun _ => (none : Option ν)) 0 where
  distinct := by simp
  nonzero _ member := by simp at member
  content _ member := by simp at member
  all _ some := absurd rfl some

/-- The same cells in another order. -/
theorem of_eq (holds : HoldsCells heap cells) (same : more = cells) : HoldsCells heap more := by
  rwa [same]

theorem reorder (holds : HoldsCells heap cells) (more : Multiset (Address × ν)) (same : more = cells) :
    HoldsCells heap more :=
  holds.of_eq same

theorem swap {first second : Multiset (Address × ν)} (holds : HoldsCells heap (first + (second + cells))) :
    HoldsCells heap (second + (first + cells)) :=
  holds.of_eq (add_left_comm ..)

theorem get (holds : HoldsCells heap ({(a, x)} + cells)) : heap a = some x :=
  holds.content (a, x) (Multiset.mem_add.mpr (.inl (Multiset.mem_singleton_self _)))

theorem ne_zero (holds : HoldsCells heap ({(a, x)} + cells)) : a ≠ 0 :=
  holds.nonzero (a, x) (Multiset.mem_add.mpr (.inl (Multiset.mem_singleton_self _)))

/-- No other cell is at the same address. -/
theorem not_mem (holds : HoldsCells heap ({(a, x)} + cells)) : ∀ cell ∈ cells, cell.1 ≠ a := by
  intro cell member same
  have distinct := holds.distinct
  rw [Multiset.map_add, Multiset.map_singleton, Multiset.singleton_add, Multiset.nodup_cons] at distinct
  exact distinct.1 (Multiset.mem_map.mpr ⟨cell, member, same⟩)

theorem ne (holds : HoldsCells heap ({(a, x)} + ({(b, y)} + cells))) : b ≠ a :=
  holds.not_mem (b, y) (Multiset.mem_add.mpr (.inl (Multiset.mem_singleton_self _)))

/-- A cell is filled anew. -/
theorem store (holds : HoldsCells heap ({(a, x)} + cells)) (y : ν) :
    HoldsCells (Function.update heap a (some y)) ({(a, y)} + cells) where
  distinct := by
    have distinct := holds.distinct
    rw [Multiset.map_add, Multiset.map_singleton] at distinct ⊢
    exact distinct
  nonzero cell member := by
    rcases Multiset.mem_add.mp member with here | there
    · rw [Multiset.mem_singleton.mp here]
      exact holds.ne_zero
    · exact holds.nonzero cell (Multiset.mem_add.mpr (.inr there))
  content cell member := by
    rcases Multiset.mem_add.mp member with here | there
    · rw [Multiset.mem_singleton.mp here, Function.update_self]
    · rw [Function.update_of_ne (holds.not_mem cell there)]
      exact holds.content cell (Multiset.mem_add.mpr (.inr there))
  all b some := by
    rw [Multiset.map_add, Multiset.map_singleton]
    by_cases here : b = a
    · rw [here]
      exact Multiset.mem_add.mpr (.inl (Multiset.mem_singleton_self a))
    · rw [Function.update_of_ne here] at some
      have known := holds.all b some
      rwa [Multiset.map_add, Multiset.map_singleton] at known

/-- A new cell. -/
theorem alloc (holds : HoldsCells heap cells) (free : heap a = none) (nonzero : a ≠ 0) (x : ν) :
    HoldsCells (Function.update heap a (some x)) ({(a, x)} + cells) where
  distinct := by
    rw [Multiset.map_add, Multiset.map_singleton, Multiset.singleton_add, Multiset.nodup_cons]
    refine ⟨fun member => ?_, holds.distinct⟩
    obtain ⟨cell, member, same⟩ := Multiset.mem_map.mp member
    have content := holds.content cell member
    rw [same, free] at content
    cases content
  nonzero cell member := by
    rcases Multiset.mem_add.mp member with here | there
    · rw [Multiset.mem_singleton.mp here]
      exact nonzero
    · exact holds.nonzero cell there
  content cell member := by
    rcases Multiset.mem_add.mp member with here | there
    · rw [Multiset.mem_singleton.mp here, Function.update_self]
    · have content := holds.content cell there
      rw [Function.update_of_ne]
      · exact content
      · intro same
        rw [same, free] at content
        cases content
  all b some := by
    rw [Multiset.map_add, Multiset.map_singleton]
    by_cases here : b = a
    · rw [here]
      exact Multiset.mem_add.mpr (.inl (Multiset.mem_singleton_self a))
    · rw [Function.update_of_ne here] at some
      exact Multiset.mem_add.mpr (.inr (holds.all b some))

/-- A cell is given back. -/
theorem free (holds : HoldsCells heap ({(a, x)} + cells)) : HoldsCells (Function.update heap a none) cells where
  distinct := by
    have distinct := holds.distinct
    rw [Multiset.map_add, Multiset.map_singleton, Multiset.singleton_add, Multiset.nodup_cons] at distinct
    exact distinct.2
  nonzero cell member := holds.nonzero cell (Multiset.mem_add.mpr (.inr member))
  content cell member := by
    rw [Function.update_of_ne (holds.not_mem cell member)]
    exact holds.content cell (Multiset.mem_add.mpr (.inr member))
  all b some := by
    have here : b ≠ a := by
      rintro rfl
      exact some (Function.update_self ..)
    rw [Function.update_of_ne here] at some
    have known := holds.all b some
    rw [Multiset.map_add, Multiset.map_singleton, Multiset.mem_add, Multiset.mem_singleton] at known
    exact known.resolve_left here

end HoldsCells

end Riscv2os.Std
