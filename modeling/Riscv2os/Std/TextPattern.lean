import Mathlib.Computability.Language

/-!
# Text patterns

A pattern says what may stand between a place in a text and the end of the text: letters one after another, runs of
letters, and behind them anything or nothing. Its meaning is a language. `mem_letters_mul` and `mem_run_mul` take one
letter off a text, which is how a matcher goes through it; `mem_anywhere` looks for the place.
-/

namespace Riscv2os.Std

open Computability

/-- What stands from some place of a text to its end. -/
inductive TextPattern (α : Type*)
  /-- Whatever follows. -/
  | anything
  /-- Nothing follows. -/
  | nothing
  /-- One letter, and then the rest. -/
  | letter (accepts : α → Bool) (rest : TextPattern α)
  /-- Any number of letters, and then the rest. -/
  | run (accepts : α → Bool) (rest : TextPattern α)

namespace TextPattern

variable {α : Type*} {accepts : α → Bool} {l : Language α} {w : List α}

/-- The texts of one letter. -/
def letters (accepts : α → Bool) : Language α := fun w => ∃ x, accepts x = true ∧ w = [x]

/-- The meaning of a pattern. -/
def language : TextPattern α → Language α
  | anything => ⊤
  | nothing => 1
  | letter accepts rest => letters accepts * rest.language
  | run accepts rest => (letters accepts)∗ * rest.language

@[simp] theorem mem_anything : w ∈ (anything : TextPattern α).language := trivial

@[simp] theorem mem_nothing : w ∈ (nothing : TextPattern α).language ↔ w = [] := Language.mem_one w

theorem mem_letters_mul : w ∈ letters accepts * l ↔ ∃ x rest, w = x :: rest ∧ accepts x = true ∧ rest ∈ l := by
  rw [Language.mem_mul]
  constructor
  · rintro ⟨_, ⟨x, accepted, rfl⟩, rest, member, rfl⟩
    exact ⟨x, rest, rfl, accepted, member⟩
  · rintro ⟨x, rest, rfl, accepted, member⟩
    exact ⟨[x], ⟨x, accepted, rfl⟩, rest, member, rfl⟩

theorem mem_run_mul : w ∈ (letters accepts)∗ * l ↔
    w ∈ l ∨ ∃ x rest, w = x :: rest ∧ accepts x = true ∧ rest ∈ (letters accepts)∗ * l := by
  rw [← mem_letters_mul, ← mul_assoc]
  conv_lhs => rw [← Language.one_add_self_mul_kstar_eq_kstar (letters accepts), add_mul, one_mul]
  exact Language.mem_add ..

@[simp] theorem not_nil_mem_letters_mul : [] ∉ letters accepts * l := by
  rw [mem_letters_mul]
  rintro ⟨x, rest, none, -⟩
  cases none

@[simp] theorem cons_mem_letters_mul {x : α} : x :: w ∈ letters accepts * l ↔ accepts x = true ∧ w ∈ l := by
  rw [mem_letters_mul]
  constructor
  · rintro ⟨y, rest, same, accepted, member⟩
    cases same
    exact ⟨accepted, member⟩
  · rintro ⟨accepted, member⟩
    exact ⟨x, w, rfl, accepted, member⟩

@[simp] theorem nil_mem_run_mul : [] ∈ (letters accepts)∗ * l ↔ [] ∈ l := by
  rw [mem_run_mul, ← mem_letters_mul]
  exact or_iff_left not_nil_mem_letters_mul

theorem cons_mem_run_mul {x : α} : x :: w ∈ (letters accepts)∗ * l ↔
    x :: w ∈ l ∨ accepts x = true ∧ w ∈ (letters accepts)∗ * l := by
  rw [mem_run_mul, ← mem_letters_mul, cons_mem_letters_mul]

/-- To look for a language is to try it at each place of the text. -/
theorem nil_mem_anywhere : [] ∈ ⊤ * l ↔ [] ∈ l := by
  rw [Language.mem_mul]
  constructor
  · rintro ⟨before, -, after, member, none⟩
    rwa [(List.append_eq_nil_iff.mp none).2] at member
  · exact fun member => ⟨[], trivial, [], member, rfl⟩

theorem cons_mem_anywhere {x : α} : x :: w ∈ ⊤ * l ↔ x :: w ∈ l ∨ w ∈ ⊤ * l := by
  rw [Language.mem_mul, Language.mem_mul]
  constructor
  · rintro ⟨before, -, after, member, same⟩
    cases before with
    | nil => exact .inl (same ▸ member)
    | cons y before =>
        cases same
        exact .inr ⟨before, trivial, after, member, rfl⟩
  · rintro (member | ⟨before, -, after, member, rfl⟩)
    · exact ⟨[], trivial, x :: w, member, rfl⟩
    · exact ⟨x :: before, trivial, after, member, rfl⟩

end TextPattern

end Riscv2os.Std
