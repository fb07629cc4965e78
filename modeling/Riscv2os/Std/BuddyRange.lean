import Riscv2os.Std.BuddyTree

/-!
# The division of a heap in which only a range is free

The units from `low` to `high` are free and all others are reserved. A block is split when it is
not inside the range, so that the free leaves are the largest blocks inside: at each level there
are at most two, one at each end of the range, and together they make up the range.
-/

namespace Riscv2os.Std

namespace BuddyTree

/-- All units of a block are in the range. -/
def Inside (low high k i : Nat) : Prop := low ≤ i * 2 ^ k ∧ (i + 1) * 2 ^ k ≤ high

instance (low high k i : Nat) : Decidable (Inside low high k i) :=
  inferInstanceAs (Decidable (_ ∧ _))

/-- The division in which a range is free. -/
def ofRange (top low high : Nat) : BuddyTree where
  alloc k i := decide (k ≤ top ∧ i < 2 ^ (top - k) ∧ ¬ Inside low high k i)
  split k i := decide (0 < k ∧ k ≤ top ∧ i < 2 ^ (top - k) ∧ ¬ Inside low high k i)

/-- The units outside the range. -/
def Outside (top low high u : Nat) : Prop := u < 2 ^ top ∧ (u < low ∨ high ≤ u)

/-- The first block of a level that does not start below the range. -/
def firstBlock (low k : Nat) : Nat := (low + 2 ^ k - 1) / 2 ^ k

/-- The first block of a level that does not end inside the range. -/
def lastBlock (high k : Nat) : Nat := high / 2 ^ k

/-- The blocks of a level that are inside the range while the blocks around them are not. -/
def rangeBlocks (low high k : Nat) : List Nat :=
  let first := firstBlock low k
  let last := lastBlock high k
  if first < last then
    (if first % 2 = 1 then [first] else []) ++ (if last % 2 = 1 then [last - 1] else [])
  else []

variable {top low high k i : Nat}

theorem firstBlock_le : firstBlock low k ≤ i ↔ low ≤ i * 2 ^ k := by
  have positive : 0 < 2 ^ k := by positivity
  rw [firstBlock, ← Nat.lt_succ_iff, Nat.div_lt_iff_lt_mul positive, Nat.succ_mul]
  omega

theorem lt_lastBlock : i < lastBlock high k ↔ (i + 1) * 2 ^ k ≤ high := by
  rw [lastBlock, ← Nat.succ_le_iff, Nat.le_div_iff_mul_le (by positivity)]

theorem inside_iff : Inside low high k i ↔ firstBlock low k ≤ i ∧ i < lastBlock high k := by
  rw [firstBlock_le, lt_lastBlock, Inside]

theorem firstBlock_succ : firstBlock low (k + 1) = (firstBlock low k + 1) / 2 := by
  apply eq_of_forall_ge_iff
  intro i
  rw [firstBlock_le, pow_succ, mul_comm _ 2, ← mul_assoc, mul_comm i, ← firstBlock_le]
  omega

theorem lastBlock_succ : lastBlock high (k + 1) = lastBlock high k / 2 := by
  rw [lastBlock, lastBlock, pow_succ, Nat.div_div_eq_div_mul]

/-- A block is inside when its halves are. -/
theorem inside_succ : Inside low high (k + 1) i ↔
    Inside low high k (2 * i) ∧ Inside low high k (2 * i + 1) := by
  rw [inside_iff, inside_iff, inside_iff, firstBlock_succ, lastBlock_succ]
  omega

theorem mem_rangeBlocks :
    i ∈ rangeBlocks low high k ↔ Inside low high k i ∧ ¬ Inside low high (k + 1) (i / 2) := by
  rw [inside_iff, inside_iff, firstBlock_succ, lastBlock_succ, rangeBlocks]
  generalize firstBlock low k = first
  generalize lastBlock high k = last
  split_ifs <;> simp only [List.mem_append, List.mem_singleton, List.not_mem_nil, false_or, or_false,
    false_iff] <;> omega

theorem nodup_rangeBlocks (low high k : Nat) : (rangeBlocks low high k).Nodup := by
  rw [rangeBlocks]
  generalize firstBlock low k = first
  generalize lastBlock high k = last
  split_ifs <;> simp
  omega

/-- The blocks of the levels below a level, and what is left for the blocks of that level. -/
theorem sum_rangeBlocks_add (n : Nat) :
    ∑ k ∈ Finset.range n, (rangeBlocks low high k).length * 2 ^ k +
      (lastBlock high n - firstBlock low n) * 2 ^ n = high - low := by
  induction n with
  | zero => simp [firstBlock, lastBlock]
  | succ n ih =>
      have level : lastBlock high n - firstBlock low n = (rangeBlocks low high n).length +
          2 * (lastBlock high (n + 1) - firstBlock low (n + 1)) := by
        rw [firstBlock_succ, lastBlock_succ, rangeBlocks]
        generalize firstBlock low n = first
        generalize lastBlock high n = last
        split_ifs <;> simp <;> omega
      rw [Finset.sum_range_succ, ← ih, level]
      ring

/-- The blocks make up the range. -/
theorem sum_rangeBlocks (positive : 0 < low) (inside : high ≤ 2 ^ top) :
    ∑ k ∈ Finset.range top, (rangeBlocks low high k).length * 2 ^ k = high - low := by
  rw [← sum_rangeBlocks_add top]
  have first : 0 < firstBlock low top := by
    by_contra none_
    have := firstBlock_le.mp (show firstBlock low top ≤ 0 by omega)
    omega
  have last : lastBlock high top ≤ 1 := by
    rw [lastBlock]
    exact Nat.div_le_of_le_mul (by linarith)
  rw [Nat.sub_eq_zero_of_le (by omega)]
  ring

/-- A block that is inside the range is in the heap. -/
theorem Inside.lt (isInside : Inside low high k i) (inside : high ≤ 2 ^ top) (below : k ≤ top) :
    i < 2 ^ (top - k) := by
  have bound : (i + 1) * 2 ^ k ≤ 2 ^ (top - k) * 2 ^ k := by
    rw [← pow_add, Nat.sub_add_cancel below]
    exact isInside.2.trans inside
  exact Nat.le_of_mul_le_mul_right bound (by positivity)

theorem valid_ofRange (positive : 0 < low) (levels : 0 < top) :
    (ofRange top low high).Valid top (Outside top low high) where
  bounded alloc := by
    have := of_decide_eq_true alloc
    exact ⟨this.1, this.2.1⟩
  alloc_of_split isSplit := by
    have := of_decide_eq_true isSplit
    exact decide_eq_true this.2
  parent {k i} below alloc := by
    obtain ⟨_, bound, outside⟩ := of_decide_eq_true alloc
    refine decide_eq_true ⟨Nat.succ_pos k, below, ?_, ?_⟩
    · rw [show top - k = top - (k + 1) + 1 by omega, pow_succ] at bound
      omega
    · rw [inside_succ]
      intro halves
      obtain even | odd : i = 2 * (i / 2) ∨ i = 2 * (i / 2) + 1 := by omega
      · exact outside (even ▸ halves.1)
      · exact outside (odd ▸ halves.2)
  root := by
    refine decide_eq_true ⟨levels, le_rfl, by positivity, fun isInside => ?_⟩
    have := isInside.1
    omega
  unit i := by simp [ofRange]
  coalesced {k i} below parent := by
    obtain ⟨_, _, bound, outside⟩ := of_decide_eq_true parent
    rw [inside_succ] at outside
    have halves : i < 2 ^ (top - k) ∧ buddy i < 2 ^ (top - k) := by
      rw [show top - k = top - (k + 1) + 1 by omega, pow_succ]
      have := buddy_div i
      omega
    have other : ¬ (Inside low high k i ∧ Inside low high k (buddy i)) := by
      rintro ⟨one, two⟩
      unfold buddy at two
      obtain even | odd : i = 2 * (i / 2) ∨ i = 2 * (i / 2) + 1 := by omega
      · rw [if_pos (by omega)] at two
        exact outside ⟨even ▸ one, by rwa [← even]⟩
      · rw [if_neg (by omega)] at two
        exact outside ⟨by rwa [show 2 * (i / 2) = i - 1 by omega], odd ▸ one⟩
    by_cases here : Inside low high k i
    · exact .inr (decide_eq_true ⟨below.le, halves.2, fun there => other ⟨here, there⟩⟩)
    · exact .inl (decide_eq_true ⟨below.le, halves.1, here⟩)
  reserved_alloc {u} held := by
    refine decide_eq_true ⟨Nat.zero_le _, held.1, fun isInside => ?_⟩
    have low_ := isInside.1
    have high_ := isInside.2
    rw [pow_zero, mul_one] at low_ high_
    have := held.2
    omega
  reserved_some := ⟨0, by positivity, .inl positive⟩

theorem free_ofRange (inside : high ≤ 2 ^ top) :
    (ofRange top low high).Free top k i ↔ k < top ∧ i ∈ rangeBlocks low high k := by
  rw [mem_rangeBlocks]
  constructor
  · rintro ⟨below, parent, free⟩
    obtain ⟨_, _, bound, outside⟩ := of_decide_eq_true parent
    have notAlloc := of_decide_eq_false free
    refine ⟨below, ?_, outside⟩
    by_contra notInside
    refine notAlloc ⟨below.le, ?_, notInside⟩
    rw [show top - k = top - (k + 1) + 1 by omega, pow_succ]
    omega
  · rintro ⟨below, isInside, outside⟩
    have bound := isInside.lt inside below.le
    refine ⟨below, decide_eq_true ⟨Nat.succ_pos k, below, ?_, outside⟩, ?_⟩
    · rw [show top - k = top - (k + 1) + 1 by omega, pow_succ] at bound
      omega
    · exact decide_eq_false fun alloc => alloc.2.2 isInside

/-- No block is in use. -/
theorem not_live_ofRange : ¬ (ofRange top low high).Live (Outside top low high) k i := by
  rintro ⟨alloc, whole, notHeld⟩
  obtain ⟨below, bound, outside⟩ := of_decide_eq_true alloc
  have zero : k = 0 := by
    by_contra positive
    exact of_decide_eq_false whole ⟨by omega, below, bound, outside⟩
  subst zero
  refine notHeld ⟨rfl, bound, ?_⟩
  unfold Inside at outside
  rw [pow_zero, mul_one, mul_one] at outside
  omega

end BuddyTree

end Riscv2os.Std
