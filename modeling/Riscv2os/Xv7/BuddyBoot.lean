import Riscv2os.Xv7.BuddyCalls
import Riscv2os.Xv7.BuddyInit

/-!
# What `bd_init` leaves

When the count of `bd_init` is right, the heap is not so large that an `int` overflows where
it matters, and what is left is a heap in which the managed memory is free.
-/

namespace Riscv2os.Xv7

open Riscv2os.Std
open BuddyTree (buddy firstBlock lastBlock rangeBlocks)
open Bd

namespace Buddy

theorem toInt_bounds (n : Int) : -2 ^ 31 ≤ toInt n ∧ toInt n < 2 ^ 31 := by
  have low := @Int.le_bmod n (2 ^ 32) (by norm_num)
  have high := @Int.bmod_lt n (2 ^ 32) (by norm_num)
  unfold toInt
  norm_num at low high ⊢
  omega

/-- A conversion to `int` adds a multiple of its range. -/
theorem toInt_wraps (n : Int) : ∃ q, toInt n = n - 4294967296 * q := by
  refine ⟨(n - toInt n) / 4294967296, ?_⟩
  have whole : (2 ^ 32 : Int) ∣ n - toInt n := Int.dvd_self_sub_bmod
  norm_num at whole
  rw [Int.mul_ediv_cancel' whole]
  ring

/-- The number of sizes that `log2` asks for, before the heap is rounded up. -/
theorem log2_units {heap : Int} (low : -2 ^ 63 ≤ heap) (high : heap < 2 ^ 63)
    (few : Nat.log2 (heap.tdiv LEAF_SIZE % 2 ^ 64).toNat < 29) :
    -16 < heap ∧ (heap.tdiv LEAF_SIZE % 2 ^ 64).toNat = heap.toNat / 16 := by
  unfold LEAF_SIZE at few ⊢
  obtain negative | small | positive : heap ≤ -16 ∨ (-16 < heap ∧ heap < 0) ∨ 0 ≤ heap := by omega
  · -- the argument of `log2` wraps
    exfalso
    have quotient : heap.tdiv 16 = -((-heap) / 16) := by
      rw [← Int.tdiv_eq_ediv_of_nonneg (by omega), Int.neg_tdiv, neg_neg]
    have large : 2 ^ 29 ≤ (heap.tdiv 16 % 2 ^ 64).toNat := by
      rw [quotient]
      omega
    have := (Nat.le_log2 (by omega)).mpr large
    omega
  · have quotient : heap.tdiv 16 = 0 := by
      rw [← neg_neg heap, Int.neg_tdiv, Int.tdiv_eq_ediv_of_nonneg (by omega),
        Int.ediv_eq_zero_of_lt (by omega) (by omega), neg_zero]
    rw [quotient]
    omega
  · rw [Int.tdiv_eq_ediv_of_nonneg positive]
    omega

/-- The heap is not larger than the sizes cover, and larger than half of that. -/
theorem sizesOf_spec {heap : Int} (low : -2 ^ 63 ≤ heap) (high : heap < 2 ^ 63)
    (few : sizesOf heap ≤ 29) :
    0 < sizesOf heap ∧ -16 < heap ∧ heap ≤ HEAP_SIZE (sizesOf heap) ∧
      (sizesOf heap = 1 ∨ HEAP_SIZE (sizesOf heap) < 2 * heap) := by
  have log_lt : Nat.log2 (heap.tdiv LEAF_SIZE % 2 ^ 64).toNat < 29 := by
    unfold sizesOf at few
    dsimp only at few
    split at few <;> omega
  obtain ⟨above, units⟩ := log2_units low high log_lt
  unfold sizesOf
  dsimp only
  rw [units]
  have upper : heap.toNat / 16 < 2 ^ (Nat.log2 (heap.toNat / 16) + 1) := Nat.lt_log2_self
  have lower : heap.toNat / 16 ≠ 0 → 2 ^ Nat.log2 (heap.toNat / 16) ≤ heap.toNat / 16 := Nat.log2_self_le
  have zero : heap.toNat / 16 = 0 → Nat.log2 (heap.toNat / 16) = 0 := by
    intro none_
    rw [none_]
    rfl
  rw [pow_succ] at upper
  generalize Nat.log2 (heap.toNat / 16) = l at upper lower zero
  rw [HEAP_SIZE_eq, HEAP_SIZE_eq, Nat.add_sub_cancel]
  split
  · next more =>
    rw [Nat.add_sub_cancel, pow_succ]
    generalize 2 ^ l = x at upper lower more ⊢
    exact ⟨by omega, above, by omega, .inr (by omega)⟩
  · next fits =>
    rw [Nat.add_sub_cancel]
    refine ⟨by omega, above, by omega, ?_⟩
    by_cases none_ : heap.toNat / 16 = 0
    · exact .inl (by rw [zero none_])
    · have := lower none_
      exact .inr (by omega)

/-- What is cut off the end of the heap, in units. -/
theorem unavailable_spec {heap : Int} (fits : heap ≤ HEAP_SIZE (sizesOf heap))
    (half : HEAP_SIZE (sizesOf heap) < 2 * heap) (few : sizesOf heap ≤ 29) (many : 2 ≤ sizesOf heap) :
    ∃ w : Nat, unavailable heap = toInt (16 * w) ∧ 2 * w ≤ 2 ^ (sizesOf heap - 1) := by
  obtain ⟨m, size⟩ : ∃ m, sizesOf heap - 1 = m + 1 := ⟨sizesOf heap - 2, by omega⟩
  have power : (2 : Nat) ^ (m + 1) ≤ 2 ^ 28 := Nat.pow_le_pow_right (by norm_num) (by omega)
  rw [HEAP_SIZE_eq, size, pow_succ] at fits half
  rw [pow_succ] at power
  unfold unavailable
  rw [HEAP_SIZE_eq, size, pow_succ]
  generalize 2 ^ m = half_ at fits half power
  dsimp only
  rw [toInt_eq (by omega) (by omega)]
  split
  · next some_ =>
    refine ⟨(((16 * (half_ * 2 : Nat) - heap - 1) / 16 + 1)).toNat, ?_, by omega⟩
    unfold LEAF_SIZE
    rw [Int.tdiv_eq_ediv_of_nonneg (by omega)]
    congr 1
    omega
  · refine ⟨0, ?_, by omega⟩
    rw [toInt_eq (by omega) (by omega)]
    omega

theorem arraysEnd_le : ∀ n < 29, arraysEnd n ≤ 2 ^ 30 - 16 := by
  decide +kernel

theorem le_arraysEnd {n : Nat} (positive : 0 < n) : 32 * n ≤ arraysEnd n := by
  have start := allocAt_le_splitAtSucc positive (n - 1)
  rw [allocAt, SZ_INFO] at start
  unfold arraysEnd splitAt
  omega

theorem unavailable_bounds (heap : Int) : -2 ^ 31 ≤ unavailable heap ∧ unavailable heap < 2 ^ 31 := by
  unfold unavailable
  dsimp only
  split <;> exact toInt_bounds _

/-- A range that is marked does not start at an address that is negative as an `int`. -/
theorem blkIndex_negative {n : Nat} {p : Int} (marked : ¬ (blkIndex 0 p < 0 ∧ 0 < blkIndexNext 0 (HEAP_SIZE n)))
    (few : n ≤ 29) : -16 < toInt p := by
  by_contra negative
  refine marked ⟨?_, ?_⟩
  · have size : BLK_SIZE 0 = 16 := rfl
    rw [blkIndex, size, ← neg_neg (toInt p), Int.neg_tdiv, Int.tdiv_eq_ediv_of_nonneg (by omega)]
    omega
  · have power : 2 ^ (n - 1) ≤ 2 ^ 28 := Nat.pow_le_pow_right (by norm_num) (by omega)
    rw [HEAP_SIZE_eq, blkIndexNext_eq 0 (by omega), firstBlock_eq, pow_zero, Nat.mod_one, Nat.div_one]
    simp

/-- With the expected count no `int` has overflowed. -/
theorem boot_bounds {heap count : Int} (low : -2 ^ 63 ≤ heap) (high : heap < 2 ^ 63) (positive : 0 ≤ count)
    (most : count ≤ 2 * HEAP_SIZE (sizesOf heap) - 32)
    (expected : toInt count =
      HEAP_SIZE (sizesOf heap) - toInt (metaEnd (sizesOf heap)) - unavailable heap)
    (marked : ¬ (blkIndex 0 (HEAP_SIZE (sizesOf heap) - unavailable heap) < 0 ∧
      0 < blkIndexNext 0 (HEAP_SIZE (sizesOf heap)))) :
    ∃ start stop : Nat, metaEnd (sizesOf heap) = 16 * start ∧
      HEAP_SIZE (sizesOf heap) - unavailable heap = 16 * stop ∧ count = 16 * (stop - start : Int) ∧
      start ≤ stop ∧ stop ≤ 2 ^ (sizesOf heap - 1) ∧ (16 * stop : Int) < 2 ^ 31 ∧
      sizesOf heap ≤ 28 ∧ 2 * sizesOf heap ≤ start := by
  have countBounds := toInt_bounds count
  have metaBounds := toInt_bounds (metaEnd (sizesOf heap))
  have cutBounds := unavailable_bounds heap
  have few : sizesOf heap ≤ 29 := by
    have : 2 ^ (sizesOf heap - 1) < 2 ^ 29 := by
      rw [HEAP_SIZE_eq] at expected
      omega
    have := (Nat.pow_lt_pow_iff_right (by norm_num)).mp this
    omega
  obtain ⟨some_, above, fits, half⟩ := sizesOf_spec low high few
  have start := blkIndex_negative marked few
  have many : 2 ≤ sizesOf heap := by
    by_contra single
    have one : sizesOf heap = 1 := by omega
    have metaOne : metaEnd 1 = 48 := by decide +kernel
    have heapOne : HEAP_SIZE 1 = 16 := rfl
    rw [one, heapOne] at expected most fits
    rw [metaOne, toInt_eq (n := 48) (by norm_num) (by norm_num), toInt_eq (n := count) (by omega) (by omega)]
      at expected
    unfold unavailable LEAF_SIZE at expected
    rw [one, heapOne] at expected
    dsimp only at expected
    rw [toInt_eq (n := 16 - heap) (by omega) (by omega)] at expected
    split at expected
    · rw [Int.tdiv_eq_ediv_of_nonneg (by omega), toInt_eq (by omega) (by omega)] at expected
      omega
    · omega
  obtain ⟨cut, cutEq, cutLe⟩ := unavailable_spec fits (half.resolve_left (by omega)) few many
  rw [HEAP_SIZE_eq] at expected most start ⊢
  -- all that is computed as an `int`, as a number of which multiples of the range are taken
  obtain ⟨countQ, countWraps⟩ := toInt_wraps count
  obtain ⟨metaQ, metaWraps⟩ := toInt_wraps (metaEnd (sizesOf heap))
  obtain ⟨cutQ, cutWraps⟩ := toInt_wraps (16 * cut)
  obtain ⟨startQ, startWraps⟩ := toInt_wraps (16 * (2 ^ (sizesOf heap - 1) : Nat) - unavailable heap)
  have startBounds := toInt_bounds (16 * (2 ^ (sizesOf heap - 1) : Nat) - unavailable heap)
  rw [← cutEq] at cutWraps
  have arrays : sizesOf heap ≤ 28 → arraysEnd (sizesOf heap) ≤ 2 ^ 30 - 16 := fun fewer =>
    arraysEnd_le (sizesOf heap) (by omega)
  have heads := le_arraysEnd some_
  have metaEq : metaEnd (sizesOf heap) = 16 * ((arraysEnd (sizesOf heap) + 15) / 16 : Nat) := by
    unfold metaEnd
    push_cast
    ring
  have largest : sizesOf heap = 29 → 2 ^ (sizesOf heap - 1) = 2 ^ 28 := fun same => by rw [same]
  have larger : sizesOf heap = 28 → 2 ^ (sizesOf heap - 1) = 2 ^ 27 := fun same => by rw [same]
  have smaller : sizesOf heap ≤ 27 → 2 ^ (sizesOf heap - 1) ≤ 2 ^ 26 := fun fewer =>
    Nat.pow_le_pow_right (by norm_num) (by omega)
  generalize 2 ^ (sizesOf heap - 1) = units at *
  have fewer : sizesOf heap ≤ 28 := by
    by_contra top
    have := largest (by omega)
    omega
  have arrays := arrays fewer
  have order : 16 * ((arraysEnd (sizesOf heap) + 15) / 16 : Nat) ≤ 16 * (units : Int) - 16 * cut := by
    -- only for the largest size can the count wrap
    obtain last | before : sizesOf heap = 28 ∨ sizesOf heap ≤ 27 := by omega
    · have := larger last
      omega
    · have := smaller before
      omega
  exact ⟨(arraysEnd (sizesOf heap) + 15) / 16, units - cut, metaEq, by omega, by omega,
    by omega, by omega, by omega, fewer, by omega⟩

/-- A range whose first block is negative is not marked. -/
theorem bdMark_negative {s s' : Bd} {start stop : Int} (sizes : 0 < s.nsizes)
    (ran : s.bdMark start stop = .ok s') : ¬ (blkIndex 0 start < 0 ∧ 0 < blkIndexNext 0 stop) := by
  rintro ⟨negative, positive⟩
  obtain ⟨n, size⟩ : ∃ n, s.nsizes = n + 1 := ⟨s.nsizes - 1, by omega⟩
  obtain ⟨m, rounds⟩ : ∃ m, (blkIndexNext 0 stop - blkIndex 0 start).toNat = m + 1 :=
    ⟨(blkIndexNext 0 stop - blkIndex 0 start).toNat - 1, by omega⟩
  have fails : markLevel start stop s 0 = .error .outOfBounds := by
    simp only [markLevel, rounds, List.range_succ_eq_map, List.foldlM_cons]
    have low : blkIndex 0 start + ((0 : Nat) : Int) < 0 := by omega
    simp only [gt_iff_lt, Nat.lt_irrefl, if_false, ok_bind, bitPut, place, if_pos (Or.inl low)]
    rfl
  rw [bdMark] at ran
  split at ran
  · cases ran
  · rw [size, List.range_succ_eq_map, List.foldlM_cons, fails] at ran
    cases ran

/-- The heads that `bd_init` has initialised point to themselves. -/
theorem lstInit_heads (mem : Links Int) (n : Nat) {k : Nat} (below : k < n) :
    ((List.range n).foldl (fun links k => lstInit links (freeHead k)) mem).next (freeHead k) = freeHead k ∧
    ((List.range n).foldl (fun links k => lstInit links (freeHead k)) mem).prev (freeHead k) = freeHead k := by
  induction n with
  | zero => omega
  | succ n ih =>
      rw [List.range_succ, List.foldl_append]
      by_cases last : k = n
      · subst last
        simp [lstInit]
      · have apart : freeHead k ≠ freeHead n := by
          unfold freeHead SZ_INFO
          omega
        simpa [lstInit, apart] using ih (by omega)

theorem lstInit_rings (mem : Links Int) (n : Nat) :
    ((List.range n).foldl (fun links k => lstInit links (freeHead k)) mem).Rings (fun k => k < n) freeHead
      fun _ => [] where
  ring k below := ⟨by simp, lstInit_heads mem n below⟩
  apart k _ j _ differ x inside inside' := by
    rw [List.mem_singleton] at inside inside'
    unfold freeHead SZ_INFO at inside inside'
    omega

/-- The most that `bd_initfree` can count. -/
theorem sum_levels_le (counts : Nat → Nat) (few : ∀ k, counts k ≤ 2) (n : Nat) :
    ∑ k ∈ Finset.range n, (counts k : Int) * BLK_SIZE k ≤ 2 * BLK_SIZE n - 32 := by
  induction n with
  | zero => simp [BLK_SIZE, LEAF_SIZE]
  | succ n ih =>
      have level : (counts n : Int) * BLK_SIZE n ≤ 2 * BLK_SIZE n :=
        mul_le_mul_of_nonneg_right (by exact_mod_cast few n) (BLK_SIZE_pos n).le
      rw [Finset.sum_range_succ, BLK_SIZE_succ]
      linarith

/-- With the expected count there are as many blocks on each list as are free. -/
theorem lengths_eq {counts : Nat → Nat} {top low high : Nat} (positive : 0 < low) (order : low ≤ high)
    (inside : high ≤ 2 ^ top) (enough : ∀ k < top, (rangeBlocks low high k).length ≤ counts k)
    (count : ∑ k ∈ Finset.range top, (counts k : Int) * BLK_SIZE k = 16 * (high - low : Int)) :
    ∀ k < top, counts k = (rangeBlocks low high k).length := by
  have total : ∑ k ∈ Finset.range top, counts k * 2 ^ k = high - low := by
    have scaled : ∑ k ∈ Finset.range top, (counts k : Int) * BLK_SIZE k =
        16 * ((∑ k ∈ Finset.range top, counts k * 2 ^ k : Nat) : Int) := by
      push_cast
      rw [Finset.mul_sum]
      refine Finset.sum_congr rfl fun k _ => ?_
      unfold BLK_SIZE LEAF_SIZE
      ring
    rw [scaled] at count
    omega
  rw [← BuddyTree.sum_rangeBlocks positive inside] at total
  have each := (Finset.sum_eq_sum_iff_of_le fun k member =>
    Nat.mul_le_mul_right (2 ^ k) (enough k (Finset.mem_range.mp member))).mp total.symm
  intro k below
  exact (Nat.eq_of_mul_eq_mul_right (by positivity) (each k (Finset.mem_range.mpr below))).symm

/-- The blocks that are on the lists after `bd_init`, with their sizes. -/
def freeBlocks (top low high : Nat) : List (Nat × Int) :=
  (List.range top).flatMap fun k => (rangeBlocks low high k).map fun i => (k, blockAt k i)

theorem mem_freeBlocks {top low high k : Nat} {p : Int} :
    (k, p) ∈ freeBlocks top low high ↔ k < top ∧ ∃ i ∈ rangeBlocks low high k, p = blockAt k i := by
  simp only [freeBlocks, List.mem_flatMap, List.mem_range, List.mem_map, Prod.mk.injEq]
  constructor
  · rintro ⟨_, below, i, member, rfl, rfl⟩
    exact ⟨below, i, member, rfl⟩
  · rintro ⟨below, i, member, rfl⟩
    exact ⟨k, below, i, member, rfl, rfl⟩

/-- No address is on the lists twice. -/
theorem nodup_freeBlocks {top low high : Nat} (positive : 0 < low) (levels : 0 < top)
    (inside : high ≤ 2 ^ top) : ((freeBlocks top low high).map Prod.snd).Nodup := by
  have valid := @BuddyTree.valid_ofRange top low high positive levels
  rw [freeBlocks, List.map_flatMap]
  simp only [List.map_map, Function.comp_def]
  rw [List.nodup_flatMap]
  constructor
  · intro k _
    exact (BuddyTree.nodup_rangeBlocks low high k).map fun i j same => blockAt_injective same
  · refine List.Nodup.pairwise_of_forall_ne List.nodup_range fun k inRange j inRange' differ => ?_
    intro p member member'
    obtain ⟨i, block, rfl⟩ := List.mem_map.mp member
    obtain ⟨x, block', same⟩ := List.mem_map.mp member'
    rw [blockAt_eq, blockAt_eq] at same
    have unit : i * 2 ^ k = x * 2 ^ j := by omega
    have leaf := ((BuddyTree.free_ofRange inside).mpr ⟨List.mem_range.mp inRange, block⟩).leaf valid
    have leaf' := ((BuddyTree.free_ofRange inside).mpr ⟨List.mem_range.mp inRange', block'⟩).leaf valid
    rw [← Nat.mul_div_cancel i (show 0 < 2 ^ k by positivity)] at leaf
    rw [← Nat.mul_div_cancel x (show 0 < 2 ^ j by positivity), ← unit] at leaf'
    exact differ (valid.leaf_unique leaf leaf')

/-- What is reserved, in units. -/
theorem reserved_eq (top low high : Nat) :
    Reserved top (16 * low) (16 * high) = BuddyTree.Outside top low high := by
  ext u
  unfold Reserved BuddyTree.Outside
  refine and_congr_right fun _ => ?_
  omega

/-- If all of the managed memory is free, no block is in use. -/
theorem not_live_ofRange {s : Bd} {low high k i : Nat} (trees : s.tree = BuddyTree.ofRange s.maxsize low high) :
    ¬ s.LiveBlock (16 * low) (16 * high) k i := by
  intro live
  refine @BuddyTree.not_live_ofRange s.maxsize low high k i ?_
  rw [← reserved_eq, ← trees]
  exact live

/-- The two calls of `bd_mark` return, and mark what is not managed. -/
theorem boot_marks {s₀ : Bd} {low high : Nat} (marked : s₀.Marked fun _ _ => False) (positive : 0 < s₀.nsizes)
    (order : low ≤ high) (inside : high ≤ 2 ^ s₀.maxsize) (fits : (16 * high : Int) < 2 ^ 31)
    (few : s₀.nsizes ≤ 28) :
    ∃ s₁ s₂, s₀.bdMark 0 (16 * low) = .ok s₁ ∧ s₁.bdMark (16 * high) (HEAP_SIZE s₀.nsizes) = .ok s₂ ∧
      s₂.nsizes = s₀.nsizes ∧ s₂.links = s₀.links ∧ s₂.tree = BuddyTree.ofRange s₂.maxsize low high := by
  have power : 2 ^ s₀.maxsize ≤ 2 ^ 27 := Nat.pow_le_pow_right (by norm_num) (by unfold Bd.maxsize; omega)
  obtain ⟨s₁, front, sizes₁, links₁, marked₁⟩ :=
    bdMark_returns s₀ marked 0 low (by norm_num) (by omega) (by omega)
  have top₁ : s₁.maxsize = s₀.maxsize := by rw [Bd.maxsize, sizes₁, Bd.maxsize]
  obtain ⟨s₂, back, sizes₂, links₂, marked₂⟩ := bdMark_returns s₁ marked₁ high
    (2 ^ s₀.maxsize) fits (by rw [top₁]) (by omega)
  have top₂ : s₂.maxsize = s₀.maxsize := by rw [Bd.maxsize, sizes₂, ← Bd.maxsize, top₁]
  refine ⟨s₁, s₂, front, ?_, sizes₂.trans sizes₁, links₂.trans links₁, ?_⟩
  · rw [HEAP_SIZE_eq]
    exact back
  · refine bdMark_tree s₂ ?_ (by omega) (by rw [top₂]; omega)
    rw [top₂, sizes₂, sizes₁]
    rw [sizes₁] at marked₂
    exact marked₂

/-- The heap after the marks and the free lists, once the numbers are in range. -/
theorem boot_heap {s₀ s₁ s₂ s₃ : Bd} {low high : Nat} {free : Int} (marked : s₀.Marked fun _ _ => False)
    (rings : s₀.links.Rings (fun k => k < s₀.nsizes) freeHead fun _ => []) (positive : 0 < s₀.nsizes)
    (order : low ≤ high) (inside : high ≤ 2 ^ s₀.maxsize) (fits : (16 * high : Int) < 2 ^ 31)
    (few : s₀.nsizes ≤ 28) (heads : 2 * s₀.nsizes ≤ low) (front : s₀.bdMark 0 (16 * low) = .ok s₁)
    (back : s₁.bdMark (16 * high) (HEAP_SIZE s₀.nsizes) = .ok s₂)
    (counted : s₂.bdInitfree (16 * low) (16 * high) = .ok (free, s₃))
    (count : ∑ k ∈ Finset.range s₂.maxsize, (s₂.levelBlocks (16 * low) (16 * high) k).length * BLK_SIZE k =
      16 * (high - low : Int)) :
    (∃ lists, Heap s₃ (16 * low) (16 * high) lists) ∧
      s₃.tree = BuddyTree.ofRange s₃.maxsize low high := by
  have power : 2 ^ s₀.maxsize ≤ 2 ^ 27 := Nat.pow_le_pow_right (by norm_num) (by unfold Bd.maxsize; omega)
  have levels : 0 < s₀.maxsize := by
    by_contra none_
    rw [show s₀.maxsize = 0 by omega] at inside
    omega
  -- the marks
  obtain ⟨t₁, t₂, front', back', sizes, links, trees⟩ := boot_marks marked positive order inside fits few
  obtain rfl : t₁ = s₁ := Except.ok.inj (front'.symm.trans front)
  obtain rfl : t₂ = s₂ := Except.ok.inj (back'.symm.trans back)
  have top : t₂.maxsize = s₀.maxsize := by rw [Bd.maxsize, sizes, Bd.maxsize]
  -- the lists
  rw [bdInitfree] at counted
  obtain ⟨_, rfl⟩ := bdInitfree_loop counted
  have levels_eq : ∀ k < t₂.maxsize, t₂.levelBlocks (16 * low) (16 * high) k =
      (rangeBlocks low high k).map (blockAt k) := by
    have each := fun k (below : k < t₂.maxsize) => levelBlocks_range t₂ trees below
      (by omega : low < 2 ^ 31) (by rw [top]; exact inside) fits
    have lengths := lengths_eq (by omega) order (by rw [top]; exact inside)
      (fun k below => (each k below).1) count
    exact fun k below => (each k below).2 (lengths k below)
  have pushed : (List.range t₂.maxsize).foldl
      (fun links k => pushAll links k (t₂.levelBlocks (16 * low) (16 * high) k)) t₂.links =
      (freeBlocks t₂.maxsize low high).foldl (fun links e => links.pushFront (freeHead e.1) e.2) s₀.links := by
    rw [freeBlocks, List.foldl_flatMap, links]
    refine List.foldl_ext _ _ _ fun links k member => ?_
    rw [levels_eq k (List.mem_range.mp member), pushAll, List.foldl_map, List.foldl_map]
    rfl
  have valid := @BuddyTree.valid_ofRange t₂.maxsize low high (by omega) (top ▸ levels)
  have fresh : ∀ k p, (k, p) ∈ freeBlocks t₂.maxsize low high →
      k < s₀.nsizes ∧ ∀ j, j < s₀.nsizes → p ∉ freeHead j :: [] := by
    intro k p member
    obtain ⟨below, i, block, rfl⟩ := mem_freeBlocks.mp member
    refine ⟨by unfold Bd.maxsize at below; omega, fun j inRange isHead => ?_⟩
    have isInside := (BuddyTree.mem_rangeBlocks.mp block).1.1
    rw [List.mem_singleton, blockAt_eq] at isHead
    unfold freeHead SZ_INFO at isHead
    omega
  obtain ⟨lists, rings', mem⟩ := rings.pushAll
    (nodup_freeBlocks (by omega : 0 < low) (top ▸ levels) (top ▸ inside)) fresh
  have held := reserved_eq t₂.maxsize low high
  rw [pushed]
  generalize (freeBlocks t₂.maxsize low high).foldl (fun links e => links.pushFront (freeHead e.1) e.2)
    s₀.links = links at rings'
  have size : HEAP_SIZE t₂.nsizes = 16 * (2 ^ t₂.maxsize : Nat) := HEAP_SIZE_eq t₂.nsizes
  have bounds : Bounds t₂.nsizes (16 * low) (16 * high) := by
    refine ⟨by omega, ?_, by omega, ?_, fits, ⟨low, rfl⟩, ⟨high, rfl⟩, by omega⟩ <;> rw [size, top] <;> omega
  have final : ({ t₂ with links := links } : Bd).tree = BuddyTree.ofRange t₂.maxsize low high := trees
  refine ⟨⟨lists, Heap.of_tree final bounds ?_ ?_ ?_⟩, final⟩
  · exact held ▸ valid
  · rw [← sizes] at rings'
    exact rings'
  · intro k below p
    rw [mem, mem_freeBlocks]
    simp only [List.not_mem_nil, false_or]
    have free_iff := fun i => @BuddyTree.free_ofRange t₂.maxsize low high k i (by rw [top]; exact inside)
    constructor
    · rintro ⟨inRange, i, block, rfl⟩
      exact ⟨i, rfl, (free_iff i).mpr ⟨inRange, block⟩⟩
    · rintro ⟨i, rfl, isFree⟩
      obtain ⟨inRange, block⟩ := (free_iff i).mp isFree
      exact ⟨inRange, i, block, rfl⟩

theorem bitPut_nsizes {s s' : Bd} {array : Nat} {index : Int} {value : Bool}
    (ran : s.bitPut array index value = .ok s') : s'.nsizes = s.nsizes := by
  rw [bitPut, bind_ok] at ran
  obtain ⟨_, _, ran⟩ := ran
  cases ran
  rfl

/-- `bd_mark` changes bits only. -/
theorem bdMark_nsizes {s s' : Bd} {start stop : Int} (ran : s.bdMark start stop = .ok s') :
    s'.nsizes = s.nsizes := by
  rw [bdMark] at ran
  split at ran
  · cases ran
  · refine foldlM_invariant (fun t : Bd => t.nsizes = s.nsizes) (fun k t next same ran => ?_) rfl ran
    refine foldlM_invariant (fun t : Bd => t.nsizes = s.nsizes) (fun j t next same ran => ?_) same ran
    dsimp only at ran
    split at ran
    · rw [bind_ok] at ran
      obtain ⟨middle, split, alloc⟩ := ran
      rw [bitPut_nsizes alloc, bitPut_nsizes split, same]
    · rw [ok_bind] at ran
      rw [bitPut_nsizes ran, same]

/-- `bd_init` leaves a heap in which all of the managed memory is free. -/
theorem bdInit_heap {mem : Links Int} {base end_ : Nat} {s : Bd} {left right : Int}
    (ran : bdInit mem base end_ = .ok (s, left, right)) :
    (∃ lists, Heap s left right lists) ∧ ∃ low high : Nat, left = 16 * low ∧ right = 16 * high ∧
      s.tree = BuddyTree.ofRange s.maxsize low high := by
  simp only [bdInit, bind_ok] at ran
  have lowest := @Int.le_bmod (end_ - ((base + 15) / 16 * 16 : Nat)) (2 ^ 64) (by norm_num)
  have highest := @Int.bmod_lt (end_ - ((base + 15) / 16 * 16 : Nat)) (2 ^ 64) (by norm_num)
  generalize Int.bmod (end_ - ((base + 15) / 16 * 16 : Nat)) (2 ^ 64) = heap at ran lowest highest
  obtain ⟨s₁, front, s₂, back, ⟨free, s₃⟩, counted, ran⟩ := ran
  dsimp only at ran
  split at ran
  · cases ran
  next expected =>
  obtain ⟨rfl, rfl, rfl⟩ : s₃ = s ∧ metaEnd (sizesOf heap) = left ∧
      HEAP_SIZE (sizesOf heap) - unavailable heap = right := by
    simpa [pure, Except.pure] using ran
  have sizes₁ := bdMark_nsizes front
  have sizes₂ := (bdMark_nsizes back).trans sizes₁
  dsimp only at sizes₁ sizes₂
  have some_ : 0 < sizesOf heap := by
    unfold sizesOf
    dsimp only
    split <;> omega
  obtain ⟨freeEq, _⟩ := bdInitfree_loop counted
  have few := fun k => length_levelBlocks s₂ (metaEnd (sizesOf heap))
    (HEAP_SIZE (sizesOf heap) - unavailable heap) k
  have top : s₂.maxsize = sizesOf heap - 1 := by rw [Bd.maxsize, sizes₂]
  have most := sum_levels_le _ few s₂.maxsize
  rw [top] at most
  rw [top] at freeEq
  have positive : 0 ≤ ∑ k ∈ Finset.range (sizesOf heap - 1), ((s₂.levelBlocks (metaEnd (sizesOf heap))
      (HEAP_SIZE (sizesOf heap) - unavailable heap) k).length : Int) * BLK_SIZE k :=
    Finset.sum_nonneg fun k _ => mul_nonneg (by omega) (BLK_SIZE_pos k).le
  obtain ⟨low, high, lowEq, highEq, count, order, inside, fits, small, heads⟩ :=
    boot_bounds (by norm_num at lowest ⊢; omega) (by norm_num at highest ⊢; omega) positive most
      (by rw [← freeEq]; exact not_not.mp expected) (bdMark_negative (by omega) back)
  rw [lowEq] at front
  rw [highEq] at back
  rw [lowEq, highEq] at counted count ⊢
  refine (boot_heap ?_ (lstInit_rings mem (sizesOf heap)) some_ order ?_ fits small heads front back counted
    (by rw [top]; exact count)).imp_right fun trees => ⟨low, high, rfl, rfl, trees⟩
  · exact ⟨fun k i => by simp [tree], fun k i => by simp [tree]⟩
  · exact inside

end Buddy

end Riscv2os.Xv7
