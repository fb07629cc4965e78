import Riscv2os.Xv7.BuddyRuns

/-!
# What `bd_init` makes of a heap

`bd_init` adds up what it puts on the free lists, and panics if that is not the size of the memory that it
manages. At each size it looks at two pairs of blocks. When the ends of the memory are in one pair it puts
the same block there twice, and when the memory ends with the heap it looks at bits that belong to the next
size.
-/

namespace Riscv2os.Xv7

open Riscv2os.Std
open BuddyTree (buddy firstBlock lastBlock rangeBlocks)

namespace Buddy

/-- The free lists make up the memory from `left` to `right`, and the bits agree with them. -/
structure Tiles (s : Bd) (left right : Int) (lists : Nat → List Int) : Prop where
  rings : s.links.Rings (fun k => k < s.nsizes) freeHead lists
  nodup : ∀ k < s.nsizes, (lists k).Nodup
  aligned : ∀ k < s.nsizes, ∀ p ∈ lists k, BLK_SIZE k ∣ p
  disjoint : ∀ k < s.nsizes, ∀ p ∈ lists k, ∀ j < s.nsizes, ∀ q ∈ lists j, (k, p) ≠ (j, q) →
    p + BLK_SIZE k ≤ q ∨ q + BLK_SIZE j ≤ p
  union : ∀ x, (∃ k < s.nsizes, ∃ p ∈ lists k, p ≤ x ∧ x < p + BLK_SIZE k) ↔ left ≤ x ∧ x < right
  alloc : ∀ k < s.nsizes, ∀ i < NBLK s.nsizes k, s.bitIsset (allocAt s.nsizes k) i =
    .ok (decide (¬ (left ≤ blockAt k i ∧ blockAt k i + BLK_SIZE k ≤ right)))
  split : ∀ k < s.nsizes, 0 < k → ∀ i < NBLK s.nsizes k,
    s.bitIsset (splitAt s.nsizes k) i = s.bitIsset (allocAt s.nsizes k) i

variable {s : Bd} {low high k i : Nat} {left right : Int} {lists : Nat → List Int}

theorem inside_iff_block : BuddyTree.Inside low high k i ↔
    16 * (low : Int) ≤ blockAt k i ∧ blockAt k i + BLK_SIZE k ≤ 16 * high := by
  rw [blockAt_add, blockAt_eq, blockAt_eq, BuddyTree.Inside]
  omega

/-- A heap in which all of the managed memory is free. -/
theorem Heap.tiles (heap : Heap s (16 * low) (16 * high) lists)
    (trees : s.tree = BuddyTree.ofRange s.maxsize low high) : Tiles s (16 * low) (16 * high) lists := by
  have blocks : ∀ k < s.nsizes, ∀ p ∈ lists k, ∃ i, p = blockAt k i ∧ s.tree.Free s.maxsize k i :=
    fun k below p => (heap.free k below p).mp
  have inside : ∀ k < s.nsizes, k ≤ s.maxsize := fun k below => by
    unfold Bd.maxsize
    omega
  refine ⟨heap.rings, fun k below => ?_, fun k below p member => ?_, ?_, fun x => ?_, fun k below i less => ?_,
    fun k below positive i less => ?_⟩
  · exact (List.nodup_cons.mp (heap.rings.ring k below).nodup).2
  · obtain ⟨i, rfl, _⟩ := blocks k below p member
    exact ⟨i, mul_comm _ _⟩
  · intro k below p member j below' q member' differ
    obtain ⟨i, rfl, free⟩ := blocks k below p member
    obtain ⟨x, rfl, free'⟩ := blocks j below' q member'
    by_cases same : blockAt k i = blockAt j x
    · -- the blocks have their first unit in common
      have positive := BLK_SIZE_pos k
      have positive' := BLK_SIZE_pos j
      obtain ⟨rfl, rfl⟩ := heap.usable_unique (.inl free) (.inl free')
        (Heap.unit_of_address (y := blockAt k i) le_rfl (by omega))
        (Heap.unit_of_address (same.symm.le) (by omega))
      exact absurd rfl differ
    · exact heap.usable_apart (.inl free) (.inl free') same
  · constructor
    · rintro ⟨k, below, p, member, above, less⟩
      obtain ⟨i, rfl, free⟩ := blocks k below p member
      have := heap.usable_inside (.inl free)
      omega
    · rintro ⟨above, less⟩
      obtain ⟨k, i, free | live, start, stop⟩ := heap.exists_usable above less
      · have below : k < s.nsizes := by
          have := free.1
          unfold Bd.maxsize at this
          omega
        exact ⟨k, below, _, (heap.free k below _).mpr ⟨i, rfl, free⟩, start, stop⟩
      · exact absurd live (not_live_ofRange trees)
  · rw [Bd.bitIsset_alloc below less, trees]
    congr 1
    refine decide_eq_decide.mpr ?_
    rw [← inside_iff_block]
    exact ⟨fun marked => marked.2.2, fun outside => ⟨inside k below, less, outside⟩⟩
  · rw [Bd.bitIsset_split positive below less, Bd.bitIsset_alloc below less, trees]
    congr 1
    refine decide_eq_decide.mpr ?_
    exact ⟨fun marked => marked.2, fun marked => ⟨positive, marked⟩⟩

/-- The place of a bit in an alloc array, or just behind it. -/
theorem place_next (below : k + 1 < s.nsizes) (near : i ≤ NBLK s.nsizes k + 1) :
    s.place (allocAt s.nsizes k) i = .ok (8 * allocAt s.nsizes k + i) := by
  have fits := NBLK_le s.nsizes k
  have next := @allocAt_le s.nsizes _ _ (show k < k + 1 by omega)
  have room := allocAt_le_splitAtSucc below (s.nsizes - 1)
  have some_ : 0 < bitBytes s.nsizes (k + 1) := Nat.succ_pos _
  rw [Bd.place, if_neg ?_]
  · rfl
  · simp only [arraysEnd, splitAt, Int.toNat_natCast]
    omega

theorem bitIsset_next (below : k + 1 < s.nsizes) (near : i ≤ NBLK s.nsizes k + 1) :
    s.bitIsset (allocAt s.nsizes k) i = .ok (s.bits (8 * allocAt s.nsizes k + i)) := by
  rw [Bd.bitIsset, place_next below near]
  rfl

/-- A call of `bd_initfree_pair` stays inside the arrays. -/
theorem bdInitfreePair_returns (below : k + 1 < s.nsizes) (near : i ≤ NBLK s.nsizes k) :
    s.bdInitfreePair k i = .ok (toInt ((s.pairBlocks k i).length * BLK_SIZE k),
      { s with links := pushAll s.links k (s.pairBlocks k i) }) := by
  have even : NBLK s.nsizes k % 2 = 0 := by
    rw [NBLK_eq below]
    omega
  have near' : buddy i ≤ NBLK s.nsizes k + 1 := by
    have half := BuddyTree.buddy_div i
    omega
  obtain ⟨⟨more, s'⟩, ran⟩ : ∃ result, s.bdInitfreePair k i = .ok result := by
    rw [Bd.bdInitfreePair, buddy_eq]
    simp only [bitIsset_next below (by omega : i ≤ NBLK s.nsizes k + 1), bitIsset_next below near', ok_bind]
    split <;> exact ⟨_, rfl⟩
  obtain ⟨count, pushed⟩ := bdInitfreePair_ok ran
  rw [ran, count, pushed]

/-- The part of `bd_initfree` for one size returns. -/
theorem initfreeLevel_returns (below : k < s.maxsize) (start : low < 2 ^ 31) (begin_ : low ≤ 2 ^ s.maxsize)
    (inside : high ≤ 2 ^ s.maxsize) (fits : (16 * high : Int) < 2 ^ 31) (free : Int) :
    ∃ result, Bd.initfreeLevel (16 * low) (16 * high) (free, s) k = .ok result := by
  have levels : k + 1 < s.nsizes := by
    unfold Bd.maxsize at below
    omega
  have first : firstBlock low k ≤ NBLK s.nsizes k := by
    rw [BuddyTree.firstBlock_le, NBLK, ← pow_add]
    exact begin_.trans (Nat.pow_le_pow_right (by norm_num) (by unfold Bd.maxsize; omega))
  have last := lastBlock_le s below inside
  have last_eq : blkIndex k (16 * high) = lastBlock high k := blkIndex_eq k fits
  simp only [Bd.initfreeLevel, blkIndexNext_eq k start, last_eq]
  rw [bdInitfreePair_returns levels first, ok_bind]
  split
  · exact ⟨_, rfl⟩
  · have next := bdInitfreePair_returns
      (s := { s with links := pushAll s.links k (s.pairBlocks k (firstBlock low k : Nat)) }) levels last
    rw [next]
    exact ⟨_, rfl⟩

/-- `bd_initfree` returns. -/
theorem bdInitfree_returns (start : low < 2 ^ 31) (begin_ : low ≤ 2 ^ s.maxsize) (inside : high ≤ 2 ^ s.maxsize)
    (fits : (16 * high : Int) < 2 ^ 31) : ∃ result, s.bdInitfree (16 * low) (16 * high) = .ok result := by
  have loop : ∀ n ≤ s.maxsize, ∃ result,
      (List.range n).foldlM (Bd.initfreeLevel (16 * low) (16 * high)) (0, s) = .ok result := by
    intro n
    induction n with
    | zero => exact fun _ => ⟨_, rfl⟩
    | succ n ih =>
        intro below
        obtain ⟨⟨free, s₁⟩, ran⟩ := ih (by omega)
        have same := (bdInitfree_loop ran).2
        have top : s₁.maxsize = s.maxsize := by rw [same, Bd.maxsize, Bd.maxsize]
        obtain ⟨result, level⟩ := initfreeLevel_returns (s := s₁) (by rw [top]; exact below) start
          (by rw [top]; exact begin_) (by rw [top]; exact inside) fits free
        refine ⟨result, ?_⟩
        rw [List.range_succ, List.foldlM_append, ran, ok_bind, List.foldlM_cons, level]
        rfl
  exact loop s.maxsize le_rfl

/-- The allocator before and after the two calls of `bd_mark` in `bd_init`. -/
def unmarked (links : Links Int) (n : Nat) : Bd where
  nsizes := n
  bits := fun _ => false
  links := links

def marks (links : Links Int) (n low high : Nat) : Except Fault Bd := do
  let s ← (unmarked links n).bdMark 0 (16 * low)
  s.bdMark (16 * high) (HEAP_SIZE n)

/-- The free lists get as many blocks of each size as there are in the memory from `low` to `high`. -/
def Counted (s : Bd) (low high : Nat) : Prop := ∀ k < s.maxsize,
  (s.levelBlocks (16 * low) (16 * high) k).length = (rangeBlocks low high k).length

instance (s : Bd) (low high : Nat) : Decidable (Counted s low high) := Nat.decidableBallLT _ _

/-- What is counted is the size of the memory exactly if it is counted right at each size. -/
theorem counted_iff (trees : s.tree = BuddyTree.ofRange s.maxsize low high) (positive : 0 < low)
    (order : low ≤ high) (inside : high ≤ 2 ^ s.maxsize) (fits : (16 * high : Int) < 2 ^ 31)
    (few : s.maxsize ≤ 27) :
    toInt (∑ k ∈ Finset.range s.maxsize, (s.levelBlocks (16 * low) (16 * high) k).length * BLK_SIZE k) =
      16 * (high - low : Int) ↔ Counted s low high := by
  have enough := fun k (below : k < s.maxsize) =>
    (levelBlocks_range s trees below (by omega : low < 2 ^ 31) inside fits).1
  have least : 0 ≤ ∑ k ∈ Finset.range s.maxsize,
      ((s.levelBlocks (16 * low) (16 * high) k).length : Int) * BLK_SIZE k :=
    Finset.sum_nonneg fun k _ => mul_nonneg (by omega) (BLK_SIZE_pos k).le
  have most := sum_levels_le _ (length_levelBlocks s (16 * low) (16 * high)) s.maxsize
  have power : (2 : Int) ^ s.maxsize ≤ 2 ^ 27 := by
    exact_mod_cast Nat.pow_le_pow_right (by norm_num) few
  have size : BLK_SIZE s.maxsize = 16 * 2 ^ s.maxsize := mul_comm _ _
  rw [size] at most
  constructor
  · intro count
    refine fun k below => lengths_eq positive order inside enough ?_ k below
    obtain ⟨q, wraps⟩ := toInt_wraps (∑ k ∈ Finset.range s.maxsize,
      (s.levelBlocks (16 * low) (16 * high) k).length * BLK_SIZE k)
    omega
  · intro same
    have sum : ∑ k ∈ Finset.range s.maxsize,
        ((s.levelBlocks (16 * low) (16 * high) k).length : Int) * BLK_SIZE k =
        16 * ((∑ k ∈ Finset.range s.maxsize, (rangeBlocks low high k).length * 2 ^ k : Nat) : Int) := by
      push_cast
      rw [Finset.mul_sum]
      refine Finset.sum_congr rfl fun k member => ?_
      rw [same k (Finset.mem_range.mp member), BLK_SIZE, LEAF_SIZE]
      ring
    rw [sum, BuddyTree.sum_rangeBlocks positive inside, toInt_eq (by omega) (by omega)]
    omega

/-- The same allocator with other links. -/
def relink (links : Links Int) (s : Bd) : Bd := { s with links := links }

theorem counted_relink (links : Links Int) : Counted (relink links s) low high ↔ Counted s low high := by
  have levels : ∀ left right k, (relink links s).levelBlocks left right k = s.levelBlocks left right k := by
    intro left right k
    simp only [Bd.levelBlocks, relink, pairBlocks_links]
  simp only [Counted, levels]
  rfl

theorem bitPut_relink (links : Links Int) (s : Bd) (array : Nat) (index : Int) (value : Bool) :
    (relink links s).bitPut array index value = (s.bitPut array index value).map (relink links) := by
  have place : (relink links s).place array index = s.place array index := rfl
  rw [Bd.bitPut, Bd.bitPut, place]
  cases s.place array index with
  | error => rfl
  | ok => rfl

/-- `bd_mark` does not look at the links. -/
theorem bdMark_relink (links : Links Int) (s : Bd) (start stop : Int) :
    (relink links s).bdMark start stop = (s.bdMark start stop).map (relink links) := by
  rw [Bd.bdMark, Bd.bdMark]
  split
  · rfl
  · refine foldlM_map (relink links) (fun k s => ?_) _ s
    refine foldlM_map (relink links) (fun j s => ?_) _ s
    dsimp only
    by_cases positive : k > 0
    · have sizes : (relink links s).nsizes = s.nsizes := rfl
      simp only [if_pos positive, sizes, bitPut_relink]
      cases s.bitPut (splitAt s.nsizes k) (blkIndex k start + j) true with
      | error => rfl
      | ok s => exact bitPut_relink links s _ _ true
    · simp only [if_neg positive, ok_bind]
      exact bitPut_relink links s _ _ true

theorem marks_relink (links links' : Links Int) (n low high : Nat) :
    marks links n low high = (marks links' n low high).map (relink links) := by
  rw [marks, marks, show unmarked links n = relink links (unmarked links' n) from rfl, bdMark_relink]
  cases (unmarked links' n).bdMark 0 (16 * low) with
  | error => rfl
  | ok s => exact bdMark_relink links s _ _

/-- When no number is too large for an `int`, `bd_init` returns exactly if it counts right. -/
theorem bdInit_returns_iff {mem links : Links Int} {base end_ n : Nat} {heap : Int}
    (heap_eq : Int.bmod (end_ - ((base + 15) / 16 * 16 : Nat)) (2 ^ 64) = heap) (sizes : sizesOf heap = n)
    (front : metaEnd n = 16 * low) (back : HEAP_SIZE n - unavailable heap = 16 * high) (some_ : 0 < n)
    (few : n ≤ 28) (heads : 2 * n ≤ low) (order : low ≤ high) (inside : high ≤ 2 ^ (n - 1))
    (fits : (16 * high : Int) < 2 ^ 31) :
    (∃ s, bdInit mem base end_ = .ok (s, 16 * low, 16 * high)) ↔
      ∃ s, marks links n low high = .ok s ∧ Counted s low high := by
  let start : Links Int := (List.range n).foldl (fun links k => lstInit links (freeHead k)) mem
  have fresh : (unmarked start n).Marked fun _ _ => False :=
    ⟨fun k i => by simp [Bd.tree, unmarked], fun k i => by simp [Bd.tree, unmarked]⟩
  obtain ⟨s₁, s₂, front', back', sizes', links', trees⟩ :=
    boot_marks fresh (by exact some_) order (by exact inside) fits (by exact few)
  have top : s₂.maxsize = n - 1 := by
    rw [Bd.maxsize, sizes']
    rfl
  obtain ⟨⟨free, s₃⟩, counted⟩ := bdInitfree_returns (s := s₂) (by omega : low < 2 ^ 31)
    (by rw [top]; omega) (by rw [top]; exact inside) fits
  have count := (bdInitfree_loop counted).1
  have marked : marks start n low high = .ok s₂ := bind_ok.mpr ⟨s₁, front', back'⟩
  have count_iff := counted_iff trees (by omega) order (by rw [top]; exact inside) fits (by rw [top]; omega)
  rw [← count] at count_iff
  have ran : bdInit mem base end_ =
      if free ≠ 16 * (high - low : Int) then .error (.panic "bd_init: free mem")
      else .ok (s₃, 16 * low, 16 * high) := by
    have check : HEAP_SIZE n - toInt (16 * low) - unavailable heap = 16 * (high - low : Int) := by
      rw [toInt_eq (by omega) (by omega)]
      omega
    rw [bdInit]
    simp only [heap_eq, sizes, front, back, check]
    show ((unmarked start n).bdMark 0 (16 * low) >>= _) = _
    rw [front', ok_bind]
    show (s₁.bdMark (16 * high) (HEAP_SIZE n) >>= _) = _
    rw [show s₁.bdMark (16 * high) (HEAP_SIZE n) = .ok s₂ from back', ok_bind, counted]
    rfl
  have same : (∃ s, marks links n low high = .ok s ∧ Counted s low high) ↔ Counted s₂ low high := by
    rw [marks_relink links start, marked]
    constructor
    · rintro ⟨s, found, counted⟩
      cases found
      exact (counted_relink links).mp counted
    · exact fun counted => ⟨_, rfl, (counted_relink links).mpr counted⟩
  rw [same, ← count_iff, ran]
  by_cases right : free = 16 * (high - low : Int)
  · rw [if_neg (not_not.mpr right)]
    exact iff_of_true ⟨s₃, rfl⟩ right
  · rw [if_pos right]
    exact iff_of_false (by rintro ⟨s, ⟨⟩⟩) right

section Counts

variable (trees : s.tree = BuddyTree.ofRange s.maxsize low high) (positive : 0 < low) (levels : 3 ≤ s.maxsize)
  (front : low ≤ 2 ^ (s.maxsize - 2)) (start : low < 2 ^ 31) (fits : (16 * high : Int) < 2 ^ 31)

include front in
theorem firstBlock_le_quarter (below : k + 2 ≤ s.maxsize) : firstBlock low k ≤ 2 ^ (s.maxsize - 2 - k) := by
  rw [BuddyTree.firstBlock_le, ← pow_add, Nat.sub_add_cancel (by omega)]
  exact front

include positive front in
/-- If the data structures are a quarter of the heap at most and the other half is there, then the memory is not
one block between two that are in use. -/
theorem pairs_differ (half : 2 ^ (s.maxsize - 1) ≤ high) (below : k < s.maxsize)
    (less : lastBlock high k < 2 ^ (s.maxsize - k)) :
    ¬ (firstBlock low k % 2 = 0 ∧ lastBlock high k = firstBlock low k + 1) := by
  have one : 1 ≤ firstBlock low k := by
    by_contra none_
    have := BuddyTree.firstBlock_le.mp (show firstBlock low k ≤ 0 by omega)
    omega
  by_cases deep : k + 2 ≤ s.maxsize
  · have first := firstBlock_le_quarter front deep
    have last : 2 * 2 ^ (s.maxsize - 2 - k) ≤ lastBlock high k := by
      rw [lastBlock, Nat.le_div_iff_mul_le (by positivity), ← pow_succ', ← pow_add,
        show s.maxsize - 2 - k + 1 + k = s.maxsize - 1 by omega]
      exact half
    omega
  · rw [show s.maxsize - k = 1 by omega, pow_one] at less
    omega

include levels front in
theorem firstBlock_lt (below : k < s.maxsize) : firstBlock low k < 2 ^ (s.maxsize - k) := by
  have step : 2 ^ (s.maxsize - 1) = 2 * 2 ^ (s.maxsize - 2) := by
    rw [← pow_succ', show s.maxsize - 2 + 1 = s.maxsize - 1 by omega]
  have whole : 2 ^ s.maxsize = 2 * 2 ^ (s.maxsize - 1) := by
    rw [← pow_succ', show s.maxsize - 1 + 1 = s.maxsize by omega]
  have size : 2 ^ (s.maxsize - k) * 2 ^ k = 2 ^ s.maxsize := by
    rw [← pow_add, Nat.sub_add_cancel below.le]
  have small : 2 ^ k ≤ 2 ^ (s.maxsize - 1) := Nat.pow_le_pow_right (by norm_num) (by omega)
  have last : firstBlock low k ≤ 2 ^ (s.maxsize - k) - 1 := by
    rw [BuddyTree.firstBlock_le, Nat.sub_mul, one_mul, size]
    omega
  have some_ : 0 < 2 ^ (s.maxsize - k) := by positivity
  omega

include trees positive levels front start fits in
/-- If not all of the heap is there either, `bd_initfree` counts right. -/
theorem counted_of_lt (half : 2 ^ (s.maxsize - 1) ≤ high) (less : high < 2 ^ s.maxsize) :
    Counted s low high := by
  intro k below
  have last_lt : lastBlock high k < 2 ^ (s.maxsize - k) := by
    rw [lastBlock, Nat.div_lt_iff_lt_mul (by positivity), ← pow_add, Nat.sub_add_cancel below.le]
    exact less
  have last_eq : blkIndex k (16 * high) = lastBlock high k := blkIndex_eq k fits
  rw [Bd.levelBlocks, blkIndexNext_eq k start, last_eq, rangeBlocks]
  by_cases order : firstBlock low k < lastBlock high k
  · have met : ¬ (lastBlock high k : Int) ≤ firstBlock low k := by
      exact_mod_cast not_le.mpr order
    have apart := pairs_differ positive front half below last_lt
    have same : (firstBlock low k % 2 = 1 ∨ lastBlock high k = firstBlock low k + 1) ↔
        firstBlock low k % 2 = 1 := by
      clear half front start fits
      omega
    rw [if_neg met, pairBlocks_first s trees below less.le fits order]
    simp only [if_pos order, same]
    obtain lastEven | lastOdd := Nat.mod_two_eq_zero_or_one (lastBlock high k)
    · rw [pairBlocks_behind s trees below last_lt lastEven le_rfl]
      split <;> simp [lastEven]
    · rw [pairBlocks_last s trees below less.le fits order lastOdd]
      split <;> simp
  · have met : (lastBlock high k : Int) ≤ firstBlock low k := by
      exact_mod_cast not_lt.mp order
    rw [if_pos met, if_neg order,
      pairBlocks_none s trees below (firstBlock_lt levels front below) (not_lt.mp order)]
    rfl

include trees positive levels front start fits in
/-- When the memory ends with the heap, the bits behind those of eight blocks are taken for the bits of two
more, of which one is free. -/
theorem not_counted_full (full : high = 2 ^ s.maxsize) : ¬ Counted s low high := by
  intro counted
  obtain ⟨k, top⟩ : ∃ k, s.maxsize = k + 3 := ⟨s.maxsize - 3, by omega⟩
  have below : k < s.maxsize := by omega
  have sizes : k + 1 < s.nsizes := by
    unfold Bd.maxsize at top
    omega
  have eight : NBLK s.nsizes k = 8 := by
    rw [show NBLK s.nsizes k = 2 ^ (s.maxsize - k) from rfl, top, show k + 3 - k = 3 by omega]
    norm_num
  have four : NBLK s.nsizes (k + 1) = 4 := by
    have := NBLK_eq sizes
    omega
  have quarter : 2 ^ (s.maxsize - 2) = 2 ^ (k + 1) := by rw [top]; rfl
  have last : lastBlock high k = 8 := by
    rw [lastBlock, full, top, pow_add, Nat.mul_div_cancel_left _ (by positivity)]
    norm_num
  have few : firstBlock low k ≤ 2 := by
    rw [BuddyTree.firstBlock_le, ← pow_succ']
    omega
  -- the bits of the next size follow
  have next : allocAt s.nsizes (k + 1) = allocAt s.nsizes k + 1 := by
    rw [allocAt, bitBytes, eight]
  have bits : ∀ i < 4, s.bits (8 * allocAt s.nsizes k + (8 + i)) = s.tree.alloc (k + 1) i := by
    intro i less
    have here : decide (k + 1 < s.nsizes ∧ i < NBLK s.nsizes (k + 1)) = true :=
      decide_eq_true ⟨sizes, by omega⟩
    rw [Bd.tree]
    simp only [here, Bool.true_and, next]
    congr 1
    omega
  have taken : s.tree.alloc (k + 1) 0 = true := by
    rw [trees]
    refine decide_eq_true ⟨by omega, by positivity, fun inside => ?_⟩
    have := inside.1
    omega
  have free : s.tree.alloc (k + 1) 1 = false := by
    rw [trees]
    refine decide_eq_false fun marked => marked.2.2 ⟨?_, ?_⟩
    · rw [one_mul]
      omega
    · rw [full, top, show 1 + 1 = 2 from rfl, ← pow_succ']
      exact Nat.pow_le_pow_right (by norm_num) (by omega)
  have extra : (s.pairBlocks k (8 : Nat)).length = 1 := by
    have mine := (bitIsset_next sizes (i := 8) (by omega)).trans
      (congrArg _ ((bits 0 (by norm_num)).trans taken))
    have other := (bitIsset_next sizes (i := 9) (by omega)).trans
      (congrArg _ ((bits 1 (by norm_num)).trans free))
    simp only [Bd.pairBlocks, buddy_eq, BuddyTree.buddy_even (show 8 % 2 = 0 from rfl), mine, other]
    rfl
  have order : firstBlock low k < lastBlock high k := by
    rw [last]
    exact few.trans_lt (by norm_num)
  have met : ¬ (lastBlock high k : Int) ≤ firstBlock low k := by
    exact_mod_cast not_le.mpr order
  have last_eq : blkIndex k (16 * high) = lastBlock high k := blkIndex_eq k fits
  have count := counted k below
  rw [Bd.levelBlocks, blkIndexNext_eq k start, last_eq, if_neg met,
    pairBlocks_first s trees below full.le fits order, List.length_append, last, extra, rangeBlocks, if_pos order,
    last] at count
  clear start fits front
  have apart : ¬ 8 = firstBlock low k + 1 := by omega
  by_cases odd : firstBlock low k % 2 = 1 <;> simp [odd, apart] at count

end Counts

/-- The number of sizes of a heap that has room for the data structures. -/
theorem sizesOf_room {heap : Nat} (small : heap < 2 ^ 31) (room : metaEnd (sizesOf heap) ≤ heap) :
    5 ≤ sizesOf heap ∧ sizesOf heap ≤ 28 ∧ (heap : Int) ≤ HEAP_SIZE (sizesOf heap) ∧
      HEAP_SIZE (sizesOf heap) < 2 * heap := by
  have few : sizesOf heap ≤ 28 := by
    have units : ((heap : Int).tdiv LEAF_SIZE % 2 ^ 64).toNat = heap / 16 := by
      unfold LEAF_SIZE
      rw [Int.tdiv_eq_ediv_of_nonneg (by omega)]
      omega
    have log : Nat.log2 (heap / 16) < 27 := by
      by_cases zero : heap / 16 = 0
      · rw [zero]
        decide
      · exact (Nat.log2_lt zero).mpr (by omega)
    unfold sizesOf
    dsimp only
    rw [units]
    split <;> omega
  obtain ⟨some_, _, above, half⟩ := @sizesOf_spec heap (by omega) (by omega) (by omega)
  have tables : ∀ n < 5, 0 < n → HEAP_SIZE n < metaEnd n := by decide +kernel
  have many : 5 ≤ sizesOf heap := by
    by_contra fewer
    have := tables _ (not_le.mp fewer) some_
    omega
  exact ⟨many, few, above, half.resolve_left (by omega)⟩

/-- The managed memory ends at the last leaf. -/
theorem end_eq {heap : Nat} (few : sizesOf heap ≤ 28) (above : (heap : Int) ≤ HEAP_SIZE (sizesOf heap))
    (half : HEAP_SIZE (sizesOf heap) < 2 * heap) :
    HEAP_SIZE (sizesOf heap) - unavailable heap = 16 * (heap / 16 : Nat) := by
  have power : 2 ^ (sizesOf heap - 1) ≤ 2 ^ 27 := Nat.pow_le_pow_right (by norm_num) (by omega)
  rw [HEAP_SIZE_eq] at above half ⊢
  unfold unavailable
  rw [HEAP_SIZE_eq]
  generalize 2 ^ (sizesOf heap - 1) = units at above half power ⊢
  dsimp only
  rw [toInt_eq (n := 16 * (units : Int) - heap) (by omega) (by omega)]
  unfold LEAF_SIZE
  split
  · rw [Int.tdiv_eq_ediv_of_nonneg (by omega), toInt_eq (by omega) (by omega)]
    omega
  · omega

/-- The data structures of larger heaps are a quarter of them at most. -/
theorem arraysEnd_quarter : ∀ n < 29, 7 ≤ n → arraysEnd n ≤ 2 ^ (n + 1) := by
  decide

/-- The smallest heaps that have room for the data structures. -/
theorem counted_small : ∀ high < 33,
    (11 ≤ high → high ≤ 16 → ((marks ⟨id, id⟩ 5 11 high).toOption.map fun s => decide (Counted s 11 high)) =
      some (decide (high < 14 ∨ 16 ≤ high))) ∧
    (16 ≤ high → ((marks ⟨id, id⟩ 6 13 high).toOption.map fun s => decide (Counted s 13 high)) =
      some (decide (high < 20 ∨ 32 ≤ high))) := by
  decide +kernel

theorem marks_counted {n : Nat} {fits : Bool} (found : ((marks ⟨id, id⟩ n low high).toOption.map fun s =>
    decide (Counted s low high)) = some fits) :
    (∃ s, marks ⟨id, id⟩ n low high = .ok s ∧ Counted s low high) ↔ fits = true := by
  cases ran : marks ⟨id, id⟩ n low high with
  | error =>
      rw [ran] at found
      cases found
  | ok s =>
      rw [ran] at found
      obtain rfl : decide (Counted s low high) = fits := Option.some.inj found
      rw [decide_eq_true_iff]
      exact ⟨by rintro ⟨_, ⟨⟩, counted⟩; exact counted, fun counted => ⟨s, rfl, counted⟩⟩

/-- The heaps that `bd_init` accepts: an `int` can hold every address, it is not a power of two, and not one of
the smallest ones whose two ends are in one pair of blocks. -/
def BootFits (heap : Nat) : Prop :=
  heap < 2 ^ 31 ∧ (∀ j ≥ 10, heap ≠ 2 ^ j) ∧ ¬ (224 ≤ heap ∧ heap < 256) ∧ ¬ (320 ≤ heap ∧ heap < 512)

/-- From seven sizes on `bd_init` counts right unless the memory ends with the heap. -/
theorem counted_large {n : Nat} (large : 7 ≤ n) (few : n ≤ 28) (front : metaEnd n = 16 * low)
    (order : low ≤ high) (half : 2 ^ (n - 2) ≤ high) (inside : high ≤ 2 ^ (n - 1))
    (fits : (16 * high : Int) < 2 ^ 31) :
    (∃ s, marks ⟨id, id⟩ n low high = .ok s ∧ Counted s low high) ↔ high < 2 ^ (n - 1) := by
  have fresh : (unmarked ⟨id, id⟩ n).Marked fun _ _ => False :=
    ⟨fun k i => by simp [Bd.tree, unmarked], fun k i => by simp [Bd.tree, unmarked]⟩
  obtain ⟨s₁, s, front', back', sizes, _, trees⟩ :=
    boot_marks fresh (by exact (show 0 < n by omega)) order (by exact inside) fits (by exact few)
  have top : s.maxsize = n - 1 := by
    rw [Bd.maxsize, sizes]
    rfl
  have marked : marks ⟨id, id⟩ n low high = .ok s := bind_ok.mpr ⟨s₁, front', back'⟩
  have positive : 0 < low := by
    have heads := le_arraysEnd (show 0 < n by omega)
    unfold metaEnd at front
    omega
  have quarter : low ≤ 2 ^ (s.maxsize - 2) := by
    have most := arraysEnd_quarter n (by omega) large
    have size : 2 ^ (n + 1) = 16 * 2 ^ (s.maxsize - 2) := by
      rw [top, show n + 1 = 4 + (n - 1 - 2) by omega, pow_add]
      rfl
    unfold metaEnd at front
    omega
  have start : low < 2 ^ 31 := by omega
  have same : (∃ s, marks ⟨id, id⟩ n low high = .ok s ∧ Counted s low high) ↔ Counted s low high := by
    rw [marked]
    exact ⟨by rintro ⟨_, ⟨⟩, counted⟩; exact counted, fun counted => ⟨s, rfl, counted⟩⟩
  rw [same, ← top]
  by_cases less : high < 2 ^ s.maxsize
  · have half' : 2 ^ (s.maxsize - 1) ≤ high := by
      rw [top]
      exact half
    exact iff_of_true (counted_of_lt trees positive (by omega) quarter start fits half' less) less
  · have full : high = 2 ^ s.maxsize := by
      rw [top] at less ⊢
      omega
    exact iff_of_false (not_counted_full trees positive (by omega) quarter start fits full) less

/-- With room for the data structures and addresses in range, `bd_init` counts right exactly for these heaps. -/
theorem counted_marks_iff {heap : Nat} (small : heap < 2 ^ 31) (room : metaEnd (sizesOf heap) ≤ heap)
    (front : metaEnd (sizesOf heap) = 16 * low) :
    (∃ s, marks ⟨id, id⟩ (sizesOf heap) low (heap / 16) = .ok s ∧ Counted s low (heap / 16)) ↔
      BootFits heap := by
  obtain ⟨many, few, above, half⟩ := sizesOf_room small room
  rw [HEAP_SIZE_eq] at above half
  rw [front] at room
  generalize sizesOf heap = n at many few above half front ⊢
  have meta5 : metaEnd 5 = 176 := rfl
  have meta6 : metaEnd 6 = 208 := rfl
  have notPower : heap < 1024 → ∀ j ≥ 10, heap ≠ 2 ^ j := by
    intro tiny j large same
    have := Nat.pow_le_pow_right (show 0 < 2 by norm_num) large
    omega
  obtain rfl | rfl | large : n = 5 ∨ n = 6 ∨ 7 ≤ n := by omega
  · obtain rfl : low = 11 := by omega
    rw [marks_counted ((counted_small (heap / 16) (by omega)).1 (by omega) (by omega)), decide_eq_true_iff,
      BootFits]
    have := notPower (by omega)
    constructor
    · exact fun counted => ⟨small, this, by omega, by omega⟩
    · rintro ⟨_, _, one, _⟩
      omega
  · obtain rfl : low = 13 := by omega
    rw [marks_counted ((counted_small (heap / 16) (by omega)).2 (by omega)), decide_eq_true_iff, BootFits]
    have := notPower (by omega)
    constructor
    · exact fun counted => ⟨small, this, by omega, by omega⟩
    · rintro ⟨_, _, _, two⟩
      omega
  · obtain ⟨m, rfl⟩ : ∃ m, n = m + 7 := ⟨n - 7, by omega⟩
    have step : 2 ^ (m + 7 - 1) = 2 * 2 ^ (m + 7 - 2) := (pow_succ' 2 (m + 5)).trans rfl
    have size : 2 ^ (m + 10) = 16 * 2 ^ (m + 7 - 1) := by
      rw [show m + 10 = 4 + (m + 7 - 1) by omega, pow_add]
      rfl
    have least : 64 ≤ 2 ^ (m + 7 - 1) :=
      Nat.pow_le_pow_right (show 0 < 2 by norm_num) (show 6 ≤ m + 7 - 1 by omega)
    rw [counted_large large few front (by omega) (by omega) (by omega) (by omega), BootFits]
    constructor
    · intro notFull
      refine ⟨small, fun j _ same => ?_, by omega, by omega⟩
      -- a power of two that is larger than half of the heap is the whole heap
      have most : 2 ^ j ≤ 2 ^ (m + 10) := by
        rw [size]
        omega
      have least' : 2 ^ (m + 10) < 2 ^ (j + 1) := by
        rw [size, pow_succ]
        omega
      have := (Nat.pow_le_pow_iff_right (show 1 < 2 by norm_num)).mp most
      have := (Nat.pow_lt_pow_iff_right (show 1 < 2 by norm_num)).mp least'
      obtain rfl : j = m + 10 := by omega
      omega
    · rintro ⟨_, notPower, _⟩
      have := notPower (m + 10) (by omega)
      omega

/-- `bd_init` of a memory that has room for its data structures returns with all of the rest on the free lists
exactly for these sizes. -/
theorem bdInit_tiles_iff {mem : Links Int} {base end_ heap : Nat}
    (range : (base + 15) / 16 * 16 + heap = end_) (room : metaEnd (sizesOf heap) ≤ heap) :
    (∃ s lists, bdInit mem base end_ = .ok (s, metaEnd (sizesOf heap), 16 * (heap / 16 : Nat)) ∧
      Tiles s (metaEnd (sizesOf heap)) (16 * (heap / 16 : Nat)) lists) ↔ BootFits heap := by
  by_cases small : heap < 2 ^ 31
  swap
  · refine iff_of_false ?_ fun fits => small fits.1
    rintro ⟨s, lists, ran, _⟩
    obtain ⟨⟨_, heaps⟩, _⟩ := bdInit_heap ran
    have := heaps.bounds.fits
    omega
  obtain ⟨low, front⟩ : ∃ low : Nat, metaEnd (sizesOf heap) = 16 * low :=
    ⟨(arraysEnd (sizesOf heap) + 15) / 16, by unfold metaEnd; omega⟩
  obtain ⟨many, few, above, half⟩ := sizesOf_room small room
  have back := end_eq few above half
  have heap_eq : Int.bmod (end_ - ((base + 15) / 16 * 16 : Nat)) (2 ^ 64) = heap := by
    rw [show (end_ : Int) - ((base + 15) / 16 * 16 : Nat) = heap by omega]
    exact Int.bmod_eq_of_le (by omega) (by omega)
  have heads : 2 * sizesOf heap ≤ low := by
    have := le_arraysEnd (show 0 < sizesOf heap by omega)
    unfold metaEnd at front
    omega
  rw [← counted_marks_iff small room front, front,
    ← @bdInit_returns_iff _ _ mem ⟨id, id⟩ base end_ _ _ heap_eq rfl front back (by omega) few heads ?_ ?_
      (by omega)]
  · constructor
    · rintro ⟨s, _, ran, _⟩
      exact ⟨s, ran⟩
    · rintro ⟨s, ran⟩
      obtain ⟨⟨lists, heaps⟩, low', high', left, right, trees⟩ := bdInit_heap ran
      obtain rfl : low = low' := by omega
      obtain rfl : heap / 16 = high' := by omega
      exact ⟨s, lists, ran, heaps.tiles trees⟩
  · rw [front] at room
    omega
  · rw [HEAP_SIZE_eq] at above
    omega

/-- The last 1008 bytes of memory. -/
theorem bdInit_tiles_small : ∃ s lists, bdInit ⟨id, id⟩ (PHYSTOP - 1008) PHYSTOP = .ok (s, 256, 1008) ∧
    Tiles s 256 1008 lists := by
  have sizes : metaEnd (sizesOf (1008 : Nat)) = 256 := rfl
  have fits : BootFits 1008 := by
    refine ⟨by norm_num, fun j large same => ?_, by norm_num, by norm_num⟩
    have := Nat.pow_le_pow_right (show 0 < 2 by norm_num) large
    omega
  have tiles := (@bdInit_tiles_iff ⟨id, id⟩ (PHYSTOP - 1008) PHYSTOP 1008 (by decide)
    (by rw [sizes]; norm_num)).mpr fits
  rw [sizes] at tiles
  exact tiles

/-- The last kilobyte of memory is a power of two. -/
theorem bdInit_panics : metaEnd (sizesOf (1024 : Nat)) ≤ 1024 ∧
    bdInit ⟨id, id⟩ (PHYSTOP - 1024) PHYSTOP = .error (.panic "bd_init: free mem") := by
  refine ⟨by decide, ?_⟩
  have panics : (bdInit ⟨id, id⟩ (PHYSTOP - 1024) PHYSTOP).map (fun _ => ()) =
      .error (.panic "bd_init: free mem") := by
    decide +kernel
  cases ran : bdInit ⟨id, id⟩ (PHYSTOP - 1024) PHYSTOP with
  | error fault =>
      rw [ran] at panics
      cases panics
      rfl
  | ok =>
      rw [ran] at panics
      cases panics

end Buddy

end Riscv2os.Xv7
