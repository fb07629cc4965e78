import Mathlib.Data.BitVec
import Mathlib.Tactic

/-!
# Ring buffers with wrapping counters

A buffer of `cap` places with two counters of `w` bits that are only ever incremented. The
place of an element is the remainder of its number by `cap`, which wrapping does not
disturb when `cap` divides `2 ^ w`. `RingBuffer.Holds` relates the buffer to all elements
ever put in and taken out, so that order and loss can be read off.
-/

namespace Riscv2os.Std

/-- The places and the two counters. -/
structure RingBuffer (α : Type) (cap w : Nat) where
  data : Fin cap → α
  nread : BitVec w
  nwrite : BitVec w

namespace RingBuffer

variable {α : Type} {cap w : Nat} [NeZero cap] {ring : RingBuffer α cap w} {put taken : List α}

/-- The place that a counter points to. -/
def place (cap : Nat) [NeZero cap] (counter : BitVec w) : Fin cap := Fin.ofNat cap counter.toNat

/-- Store an element and count it. -/
def push (ring : RingBuffer α cap w) (a : α) : RingBuffer α cap w :=
  { ring with
    data := Function.update ring.data (place cap ring.nwrite) a
    nwrite := ring.nwrite + 1 }

/-- Store an element where the next one goes. -/
def store (ring : RingBuffer α cap w) (a : α) : RingBuffer α cap w :=
  { ring with data := Function.update ring.data (place cap ring.nwrite) a }

/-- Count the element that was stored. -/
def count (ring : RingBuffer α cap w) : RingBuffer α cap w := { ring with nwrite := ring.nwrite + 1 }

/-- The oldest element. -/
def front (ring : RingBuffer α cap w) : α := ring.data (place cap ring.nread)

/-- Count the oldest element as taken. -/
def pop (ring : RingBuffer α cap w) : RingBuffer α cap w := { ring with nread := ring.nread + 1 }

/-- The buffer after the elements of `put` went in and those of `taken` came out. -/
structure Holds (ring : RingBuffer α cap w) (put taken : List α) : Prop where
  nread : ring.nread = BitVec.ofNat w taken.length
  nwrite : ring.nwrite = BitVec.ofNat w put.length
  order : taken <+: put
  bound : put.length ≤ taken.length + cap
  stored : ∀ k, taken.length ≤ k → (inside : k < put.length) →
    ring.data (Fin.ofNat cap k) = put[k]

theorem Holds.empty {data : Fin cap → α} : (RingBuffer.mk data 0 (0 : BitVec w)).Holds [] [] where
  nread := rfl
  nwrite := rfl
  order := List.prefix_rfl
  bound := by simp
  stored k _ inside := absurd inside (by simp)

variable (divides : cap ∣ 2 ^ w) (short : cap < 2 ^ w)

/-- Elements that are a capacity apart have one place, and closer ones have two. -/
theorem ofNat_inj {k n : Nat} (le : k ≤ n) (near : n < k + cap)
    (same : Fin.ofNat cap k = Fin.ofNat cap n) : k = n := by
  have remainders : k % cap = n % cap := congrArg Fin.val same
  have divisible : cap ∣ n - k := (Nat.modEq_iff_dvd' le).mp remainders
  by_contra differ
  have := Nat.le_of_dvd (by omega) divisible
  omega

include divides in
theorem place_ofNat (k : Nat) : place cap (BitVec.ofNat w k) = Fin.ofNat cap k := by
  apply Fin.ext
  simp only [place, Fin.val_ofNat, BitVec.toNat_ofNat]
  exact Nat.mod_mod_of_dvd k divides

include short in
/-- The difference of the counters is the number of elements held, wrapped or not. -/
theorem Holds.pending (holds : ring.Holds put taken) :
    (ring.nwrite - ring.nread).toNat = put.length - taken.length := by
  have le : taken.length ≤ put.length := holds.order.length_le
  have bound := holds.bound
  have split : put.length = taken.length + (put.length - taken.length) := by omega
  rw [holds.nwrite, holds.nread, split, BitVec.ofNat_add, BitVec.add_comm, BitVec.add_sub_cancel,
    BitVec.toNat_ofNat, Nat.add_sub_cancel_left, Nat.mod_eq_of_lt (by omega)]

include short in
/-- The buffer is empty exactly when the counters agree. -/
theorem Holds.empty_iff (holds : ring.Holds put taken) :
    ring.nread = ring.nwrite ↔ taken.length = put.length := by
  have pending := holds.pending short
  have le : taken.length ≤ put.length := holds.order.length_le
  constructor
  · intro same
    rw [same, BitVec.sub_self, BitVec.toNat_zero] at pending
    omega
  · intro same
    rw [holds.nread, holds.nwrite, same]

include short in
/-- The buffer is full exactly when the counters are a capacity apart. -/
theorem Holds.full_iff (holds : ring.Holds put taken) :
    ring.nwrite = ring.nread + BitVec.ofNat w cap ↔ put.length = taken.length + cap := by
  have pending := holds.pending short
  have le : taken.length ≤ put.length := holds.order.length_le
  constructor
  · intro same
    rw [same, BitVec.add_comm, BitVec.add_sub_cancel, BitVec.toNat_ofNat, Nat.mod_eq_of_lt short] at pending
    omega
  · intro same
    rw [holds.nread, holds.nwrite, same, BitVec.ofNat_add]

include divides in
/-- An element may be stored before it is counted. -/
theorem Holds.store (holds : ring.Holds put taken) (room : put.length < taken.length + cap) (a : α) :
    (ring.store a).Holds put taken where
  nread := holds.nread
  nwrite := holds.nwrite
  order := holds.order
  bound := holds.bound
  stored k from_ inside := by
    have apart : Fin.ofNat cap k ≠ Fin.ofNat cap put.length := fun same => by
      have := ofNat_inj (by omega) (by omega) same
      omega
    show Function.update ring.data (place cap ring.nwrite) a (Fin.ofNat cap k) = _
    rw [holds.nwrite, place_ofNat divides, Function.update_of_ne apart, holds.stored k from_ inside]

include divides in
/-- An element that is stored is counted. -/
theorem Holds.count (holds : ring.Holds put taken) (room : put.length < taken.length + cap) {a : α}
    (stored : ring.data (place cap ring.nwrite) = a) : ring.count.Holds (put ++ [a]) taken where
  nread := holds.nread
  nwrite := by
    show ring.nwrite + 1 = _
    rw [holds.nwrite, List.length_append, BitVec.ofNat_add]
    rfl
  order := holds.order.trans (List.prefix_append ..)
  bound := by simpa using room
  stored k from_ inside := by
    rw [List.length_append, List.length_singleton] at inside
    show ring.data (Fin.ofNat cap k) = _
    by_cases last : k = put.length
    · subst last
      rw [← place_ofNat divides put.length, ← holds.nwrite, stored]
      simp
    · rw [holds.stored k from_ (by omega)]
      exact (List.getElem_append_left (by omega)).symm

include divides in
/-- An element goes into a buffer that is not full. -/
theorem Holds.push (holds : ring.Holds put taken) (room : put.length < taken.length + cap) (a : α) :
    (ring.push a).Holds (put ++ [a]) taken :=
  (holds.store divides room a).count divides room (Function.update_self ..)

include divides in
theorem Holds.front_eq (holds : ring.Holds put taken) (more : taken.length < put.length) :
    ring.front = put[taken.length] := by
  rw [RingBuffer.front, holds.nread, place_ofNat divides, holds.stored _ le_rfl more]

include divides in
/-- The oldest element comes out of a buffer that is not empty. -/
theorem Holds.pop (holds : ring.Holds put taken) (more : taken.length < put.length) :
    ring.pop.Holds put (taken ++ [ring.front]) := by
  have front := holds.front_eq divides more
  have order : taken ++ [ring.front] <+: put := by
    rw [front]
    obtain ⟨rest, rfl⟩ := holds.order
    cases rest with
    | nil => simp at more
    | cons a rest =>
        refine ⟨rest, ?_⟩
        simp
  have bound := holds.bound
  refine ⟨?_, holds.nwrite, order, ?_, fun k from_ inside => holds.stored k ?_ inside⟩
  · show ring.nread + 1 = _
    rw [holds.nread, List.length_append, BitVec.ofNat_add]
    rfl
  · simp only [List.length_append, List.length_singleton]
    omega
  · simp only [List.length_append, List.length_singleton] at from_
    omega

end RingBuffer

end Riscv2os.Std
