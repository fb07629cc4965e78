import Mathlib.Data.List.GetD
import Mathlib.Tactic

/-!
# Text in a bounded buffer

A writer counts positions modulo a size, and drops what is not below a bound. What a buffer holds in
the end is the last that was stored at each place.
-/

namespace Riscv2os.Std

namespace BoundedBuffer

variable {α : Type} {size n pos k : Nat} {buf : Nat → α} {c d : α} {text more : List α}

/-- Store one element. -/
def put (size n : Nat) (buf : Nat → α) (pos : Nat) (c : α) : Nat → α :=
  if pos % size < n then Function.update buf (pos % size) c else buf

/-- Store a text from a position on. -/
def puts (size n : Nat) : (Nat → α) → Nat → List α → Nat → α
  | buf, _, [] => buf
  | buf, pos, c :: text => puts size n (put size n buf pos c) (pos + 1) text

theorem put_apply : put size n buf pos c k = if pos % size = k ∧ k < n then c else buf k := by
  unfold put
  split
  · next inside =>
    rw [Function.update_apply]
    by_cases here : k = pos % size
    · rw [if_pos here, if_pos ⟨here.symm, here ▸ inside⟩]
    · rw [if_neg here, if_neg fun both => here both.1.symm]
  · next outside =>
    rw [if_neg]
    rintro ⟨rfl, inside⟩
    exact outside inside

@[simp] theorem puts_nil : puts size n buf pos [] = buf := rfl

theorem puts_cons : puts size n buf pos (c :: text) = puts size n (put size n buf pos c) (pos + 1) text := rfl

theorem puts_append : puts size n buf pos (text ++ more) =
    puts size n (puts size n buf pos text) (pos + text.length) more := by
  induction text generalizing buf pos with
  | nil => rfl
  | cons c text ih =>
      rw [List.cons_append, puts_cons, puts_cons, ih, List.length_cons]
      congr 1
      omega

/-- Two positions are one for the writer. -/
theorem puts_congr {pos' : Nat} (same : pos % size = pos' % size) :
    puts size n buf pos text = puts size n buf pos' text := by
  induction text generalizing buf pos pos' with
  | nil => rfl
  | cons c text ih =>
      have next : (pos + 1) % size = (pos' + 1) % size := Nat.ModEq.add_right 1 same
      rw [puts_cons, puts_cons, ih next, put, put, same]

theorem puts_mod : puts size n buf (pos % size) text = puts size n buf pos text :=
  puts_congr (Nat.mod_mod pos size)

/-- Nothing is stored at or behind the bound. -/
theorem puts_outside (outside : n ≤ k) : puts size n buf pos text k = buf k := by
  induction text generalizing buf pos with
  | nil => rfl
  | cons c text ih => rw [puts_cons, ih, put_apply, if_neg fun both => absurd both.2 (not_lt.mpr outside)]

/-- An element that is stored elsewhere can be stored first. -/
theorem puts_put {place : Nat} (apart : ∀ j < text.length, (pos + j) % size ≠ place % size) :
    puts size n (put size n buf place d) pos text = put size n (puts size n buf pos text) place d := by
  induction text generalizing buf pos with
  | nil => rfl
  | cons c text ih =>
      have first : pos % size ≠ place % size := apart 0 (by simp)
      have swap : put size n (put size n buf place d) pos c = put size n (put size n buf pos c) place d := by
        funext k
        simp only [put_apply]
        by_cases here : pos % size = k ∧ k < n
        · rw [if_pos here, if_neg fun both => first (here.1.trans both.1.symm), if_pos here]
        · rw [if_neg here, if_neg here]
      rw [puts_cons, puts_cons, swap]
      refine ih fun j less => ?_
      rw [Nat.add_right_comm, Nat.add_assoc]
      exact apart (j + 1) (by simpa using less)

/-- A place of the buffer holds the last that was stored there. -/
theorem puts_apply [Inhabited α] (fits : n ≤ size) (inside : k < n) : puts size n buf 0 text k =
    if k < text.length then text.getD (k + (text.length - 1 - k) / size * size) default else buf k := by
  induction text using List.reverseRecOn with
  | nil => simp
  | append_singleton text c ih =>
      rw [puts_append, puts_cons, puts_nil, put_apply, Nat.zero_add, ih, List.length_append,
        List.length_singleton, Nat.add_sub_cancel]
      have positive : 0 < size := by omega
      by_cases here : text.length % size = k
      · have low : k ≤ text.length := here ▸ Nat.mod_le _ _
        have last : k + (text.length - k) / size * size = text.length := by
          have parts := Nat.mod_add_div text.length size
          have whole : text.length - k = size * (text.length / size) := by omega
          rw [whole, Nat.mul_div_cancel_left _ positive, Nat.mul_comm]
          omega
        rw [if_pos ⟨here, inside⟩, if_pos (by omega), last]
        simp
      · rw [if_neg fun both => here both.1]
        by_cases below : k < text.length
        · have same : (text.length - k) / size = (text.length - 1 - k) / size := by
            have step : text.length - k = text.length - 1 - k + 1 := by omega
            rw [step, Nat.succ_div, if_neg, Nat.add_zero]
            rintro ⟨laps, lap⟩
            apply here
            have whole : text.length = k + size * laps := by omega
            rw [whole, Nat.add_mul_mod_self_left, Nat.mod_eq_of_lt (by omega)]
          have bound : k + (text.length - 1 - k) / size * size < text.length := by
            have floor := Nat.div_mul_le_self (text.length - 1 - k) size
            omega
          rw [if_pos below, if_pos (by omega), same, List.getD_append _ _ _ _ bound]
        · have equal : k ≠ text.length := by
            rintro rfl
            exact here (Nat.mod_eq_of_lt (by omega))
          rw [if_neg below, if_neg (by omega)]

end BoundedBuffer

end Riscv2os.Std
