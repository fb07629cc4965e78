import Riscv2os.Std.BuddyTree
import Riscv2os.Xv7.Buddy

/-!
# The bit arrays of the buddy allocator

The arrays do not overlap, so that the bits of the allocator are those of a `BuddyTree`: a
store to a bit of one block changes the bit of that block and no other.
-/

namespace Riscv2os.Xv7

open Riscv2os.Std
open BuddyTree (setBit)

namespace Buddy

variable {nsizes k j i : Nat}

theorem toInt_eq {n : Int} (low : -2 ^ 31 ≤ n) (high : n < 2 ^ 31) : toInt n = n := by
  rw [toInt]
  refine Int.bmod_eq_of_le ?_ ?_
  · norm_num
    linarith
  · norm_num
    linarith

theorem BLK_SIZE_pos (k : Nat) : 0 < BLK_SIZE k := by
  unfold BLK_SIZE LEAF_SIZE
  positivity

theorem BLK_SIZE_succ (k : Nat) : BLK_SIZE (k + 1) = 2 * BLK_SIZE k := by
  unfold BLK_SIZE
  ring

/-- The address of block `i` of the size `k`. -/
def blockAt (k i : Nat) : Int := i * BLK_SIZE k

theorem blockAt_eq (k i : Nat) : blockAt k i = 16 * (i * 2 ^ k : Nat) := by
  unfold blockAt BLK_SIZE LEAF_SIZE
  push_cast
  ring

/-- `blk_index` of an address is the number of its unit, divided by the units of a block. -/
theorem blkIndex_eq (k : Nat) {u : Nat} (small : (16 * u : Int) < 2 ^ 31) :
    blkIndex k (16 * u) = (u / 2 ^ k : Nat) := by
  rw [blkIndex, toInt_eq (by omega) small, BLK_SIZE, LEAF_SIZE, mul_comm ((2 : Int) ^ k) 16,
    Int.mul_tdiv_mul_of_pos _ _ (by norm_num)]
  have power : (2 : Int) ^ k = (2 ^ k : Nat) := by push_cast; rfl
  rw [power]
  rfl

theorem NBLK_le (nsizes k : Nat) : NBLK nsizes k ≤ 8 * bitBytes nsizes k := by
  have : 0 < NBLK nsizes k := by
    unfold NBLK
    positivity
  unfold bitBytes
  omega

theorem allocAt_le (less : k < j) : allocAt nsizes k + bitBytes nsizes k ≤ allocAt nsizes j := by
  induction j with
  | zero => omega
  | succ j ih =>
      rw [allocAt]
      obtain rfl | below := Nat.eq_or_lt_of_le (Nat.lt_succ_iff.mp less)
      · exact le_rfl
      · have := ih below
        omega

theorem splitAtSucc_le (less : k < j) :
    splitAtSucc nsizes k + bitBytes nsizes (k + 1) ≤ splitAtSucc nsizes j := by
  induction j with
  | zero => omega
  | succ j ih =>
      rw [splitAtSucc]
      obtain rfl | below := Nat.eq_or_lt_of_le (Nat.lt_succ_iff.mp less)
      · exact le_rfl
      · have := ih below
        omega

theorem allocAt_le_splitAtSucc (inside : k < nsizes) (j : Nat) :
    allocAt nsizes k + bitBytes nsizes k ≤ splitAtSucc nsizes j := by
  have start : allocAt nsizes nsizes ≤ splitAtSucc nsizes j := by
    induction j with
    | zero => exact le_rfl
    | succ j ih =>
        rw [splitAtSucc]
        omega
  exact (allocAt_le inside).trans start

variable {x y : Nat}

/-- The alloc arrays have no bit in common. -/
theorem alloc_place_ne (inside : x < NBLK nsizes j) (inside' : y < NBLK nsizes k)
    (apart : ¬ (j = k ∧ x = y)) : 8 * allocAt nsizes j + x ≠ 8 * allocAt nsizes k + y := by
  have fits := NBLK_le nsizes j
  have fits' := NBLK_le nsizes k
  obtain less | rfl | more := Nat.lt_trichotomy j k
  · have := @allocAt_le nsizes _ _ less
    omega
  · omega
  · have := @allocAt_le nsizes _ _ more
    omega

/-- The split arrays have no bit in common. -/
theorem split_place_ne (positive : 0 < j) (positive' : 0 < k) (inside : x < NBLK nsizes j)
    (inside' : y < NBLK nsizes k) (apart : ¬ (j = k ∧ x = y)) :
    8 * splitAt nsizes j + x ≠ 8 * splitAt nsizes k + y := by
  obtain ⟨j, rfl⟩ : ∃ l, j = l + 1 := ⟨j - 1, by omega⟩
  obtain ⟨k, rfl⟩ : ∃ l, k = l + 1 := ⟨k - 1, by omega⟩
  have fits := NBLK_le nsizes (j + 1)
  have fits' := NBLK_le nsizes (k + 1)
  simp only [splitAt, Nat.add_sub_cancel]
  obtain less | rfl | more := Nat.lt_trichotomy j k
  · have := @splitAtSucc_le nsizes _ _ less
    omega
  · omega
  · have := @splitAtSucc_le nsizes _ _ more
    omega

/-- An alloc array and a split array have no bit in common. -/
theorem alloc_split_place_ne (below : j < nsizes) (inside : x < NBLK nsizes j) (y : Nat) :
    8 * allocAt nsizes j + x ≠ 8 * splitAt nsizes k + y := by
  have fits := NBLK_le nsizes j
  have := allocAt_le_splitAtSucc below (k - 1)
  simp only [splitAt]
  omega

end Buddy

open Buddy

namespace Bd

variable {s : Bd} {k j i : Nat} {value : Bool}

/-- The bits of the arrays. -/
def tree (s : Bd) : BuddyTree where
  alloc k i := decide (k < s.nsizes ∧ i < NBLK s.nsizes k) && s.bits (8 * allocAt s.nsizes k + i)
  split k i := decide (0 < k ∧ k < s.nsizes ∧ i < NBLK s.nsizes k) &&
    s.bits (8 * splitAt s.nsizes k + i)

theorem place_alloc (below : k < s.nsizes) (inside : i < NBLK s.nsizes k) :
    s.place (allocAt s.nsizes k) i = .ok (8 * allocAt s.nsizes k + i) := by
  have fits := NBLK_le s.nsizes k
  have room := allocAt_le_splitAtSucc below (s.nsizes - 1)
  rw [place, if_neg ?_]
  · rfl
  · simp only [arraysEnd, splitAt, Int.toNat_natCast]
    omega

theorem place_split (positive : 0 < k) (below : k < s.nsizes) (inside : i < NBLK s.nsizes k) :
    s.place (splitAt s.nsizes k) i = .ok (8 * splitAt s.nsizes k + i) := by
  have fits := NBLK_le s.nsizes k
  obtain ⟨k, rfl⟩ : ∃ l, k = l + 1 := ⟨k - 1, by omega⟩
  have room := @splitAtSucc_le s.nsizes _ _ (show k < s.nsizes - 1 by omega)
  rw [place, if_neg ?_]
  · rfl
  · simp only [arraysEnd, splitAt, Int.toNat_natCast, Nat.add_sub_cancel]
    omega

theorem bitIsset_alloc (below : k < s.nsizes) (inside : i < NBLK s.nsizes k) :
    s.bitIsset (allocAt s.nsizes k) i = .ok (s.tree.alloc k i) := by
  rw [bitIsset, place_alloc below inside, ok_bind]
  simp [tree, below, inside, pure, Except.pure]

theorem bitIsset_split (positive : 0 < k) (below : k < s.nsizes) (inside : i < NBLK s.nsizes k) :
    s.bitIsset (splitAt s.nsizes k) i = .ok (s.tree.split k i) := by
  rw [bitIsset, place_split positive below inside, ok_bind]
  simp [tree, positive, below, inside, pure, Except.pure]

/-- Only one bit changes when the alloc bit of a block is stored. -/
theorem bitPut_alloc (below : k < s.nsizes) (inside : i < NBLK s.nsizes k) (value : Bool) :
    ∃ bits, s.bitPut (allocAt s.nsizes k) i value = .ok { s with bits := bits } ∧
      tree { s with bits := bits } = { s.tree with alloc := setBit s.tree.alloc k i value } := by
  refine ⟨_, by rw [bitPut, place_alloc below inside]; rfl, ?_⟩
  simp only [tree]
  congr 1
  · funext j x
    by_cases here : j = k ∧ x = i
    · obtain ⟨rfl, rfl⟩ := here
      simp [below, inside]
    · rw [BuddyTree.setBit_ne _ _ here]
      by_cases array : j < s.nsizes ∧ x < NBLK s.nsizes j
      · rw [Function.update_of_ne (alloc_place_ne array.2 inside here)]
      · simp [array]
  · funext j x
    by_cases array : 0 < j ∧ j < s.nsizes ∧ x < NBLK s.nsizes j
    · rw [Function.update_of_ne (alloc_split_place_ne below inside x).symm]
    · simp [array]

/-- Only one bit changes when the split bit of a block is stored. -/
theorem bitPut_split (positive : 0 < k) (below : k < s.nsizes) (inside : i < NBLK s.nsizes k)
    (value : Bool) :
    ∃ bits, s.bitPut (splitAt s.nsizes k) i value = .ok { s with bits := bits } ∧
      tree { s with bits := bits } = { s.tree with split := setBit s.tree.split k i value } := by
  refine ⟨_, by rw [bitPut, place_split positive below inside]; rfl, ?_⟩
  simp only [tree]
  congr 1
  · funext j x
    by_cases array : j < s.nsizes ∧ x < NBLK s.nsizes j
    · rw [Function.update_of_ne (alloc_split_place_ne array.1 array.2 i)]
    · simp [array]
  · funext j x
    by_cases here : j = k ∧ x = i
    · obtain ⟨rfl, rfl⟩ := here
      simp [positive, below, inside]
    · rw [BuddyTree.setBit_ne _ _ here]
      by_cases array : 0 < j ∧ j < s.nsizes ∧ x < NBLK s.nsizes j
      · rw [Function.update_of_ne (split_place_ne array.1 positive array.2.2 inside here)]
      · simp [array]

end Bd

end Riscv2os.Xv7
