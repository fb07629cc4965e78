import Riscv2os.Xv7.BuddyMarks

/-!
# The free lists after `bd_init`

`bd_initfree` looks at the two ends of the managed memory at each size, and may put a block on a
list that is not free, or put one there twice. It counts what it puts there. The count that
`bd_init` expects is that of the free blocks, each of which is put on its list, so that with
this count there is nothing else on the lists.
-/

namespace Riscv2os.Xv7

open Riscv2os.Std
open BuddyTree (buddy firstBlock lastBlock rangeBlocks)
open Bd

/-- What `bd_initfree_pair` puts on the list. -/
def Bd.pairBlocks (s : Bd) (k : Nat) (bi : Int) : List Int :=
  let buddy := if bi.tmod 2 = 0 then bi + 1 else bi - 1
  match s.bitIsset (Buddy.allocAt s.nsizes k) bi, s.bitIsset (Buddy.allocAt s.nsizes k) buddy with
  | .ok mine, .ok other =>
      if mine ≠ other then [if mine then Buddy.addr k buddy else Buddy.addr k bi] else []
  | _, _ => []

/-- What `bd_initfree` puts on the list of a size. -/
def Bd.levelBlocks (s : Bd) (left right : Int) (k : Nat) : List Int :=
  s.pairBlocks k (Buddy.blkIndexNext k left) ++
    if Buddy.blkIndex k right ≤ Buddy.blkIndexNext k left then []
    else s.pairBlocks k (Buddy.blkIndex k right)

namespace Buddy

/-- Put blocks on a list, one after the other. -/
def pushAll (links : Links Int) (k : Nat) (blocks : List Int) : Links Int :=
  blocks.foldl (fun links p => lstPush links (freeHead k) p) links

theorem toInt_add_toInt (m n : Int) : toInt (m + toInt n) = toInt (m + n) := by
  simp only [toInt, Int.add_bmod_bmod]

theorem toInt_toInt_add (m n : Int) : toInt (toInt m + n) = toInt (m + n) := by
  simp only [toInt, Int.bmod_add_bmod]

variable {s s' : Bd} {k : Nat} {bi free more left right : Int}

theorem bdInitfreePair_ok (ran : s.bdInitfreePair k bi = .ok (more, s')) :
    more = toInt ((s.pairBlocks k bi).length * BLK_SIZE k) ∧
      s' = { s with links := pushAll s.links k (s.pairBlocks k bi) } := by
  rw [bdInitfreePair, bind_ok] at ran
  obtain ⟨mine, first, ran⟩ := ran
  rw [bind_ok] at ran
  obtain ⟨other, second, ran⟩ := ran
  simp only [pairBlocks, first, second]
  by_cases differ : mine ≠ other
  · rw [if_pos differ] at ran ⊢
    obtain ⟨rfl, rfl⟩ := Prod.mk.inj (Except.ok.inj ran)
    simp [pushAll]
  · rw [if_neg differ] at ran ⊢
    obtain ⟨rfl, rfl⟩ := Prod.mk.inj (Except.ok.inj ran)
    refine ⟨?_, rfl⟩
    simp [toInt]

theorem pairBlocks_links (s : Bd) (links : Links Int) (k : Nat) (bi : Int) :
    pairBlocks { s with links := links } k bi = s.pairBlocks k bi := rfl

theorem length_pairBlocks (s : Bd) (k : Nat) (bi : Int) : (s.pairBlocks k bi).length ≤ 1 := by
  unfold pairBlocks
  dsimp only
  split
  · split <;> simp
  · simp

theorem length_levelBlocks (s : Bd) (left right : Int) (k : Nat) :
    (s.levelBlocks left right k).length ≤ 2 := by
  unfold levelBlocks
  have first := length_pairBlocks s k (blkIndexNext k left)
  have second := length_pairBlocks s k (blkIndex k right)
  split <;> simp <;> omega

theorem initfreeLevel_ok (ran : initfreeLevel left right (toInt free, s) k = .ok (more, s')) :
    more = toInt (free + (s.levelBlocks left right k).length * BLK_SIZE k) ∧
      s' = { s with links := pushAll s.links k (s.levelBlocks left right k) } := by
  rw [initfreeLevel, bind_ok] at ran
  obtain ⟨⟨one, s₁⟩, first, ran⟩ := ran
  obtain ⟨count, pushed⟩ := bdInitfreePair_ok first
  subst pushed
  rw [levelBlocks]
  dsimp only at ran
  by_cases met : blkIndex k right ≤ blkIndexNext k left
  · rw [if_pos met] at ran ⊢
    obtain ⟨rfl, rfl⟩ := Prod.mk.inj (Except.ok.inj ran)
    rw [count, toInt_add_toInt, toInt_toInt_add, List.append_nil]
    exact ⟨rfl, rfl⟩
  · rw [if_neg met, bind_ok] at ran
    rw [if_neg met]
    obtain ⟨⟨two, s₂⟩, second, ran⟩ := ran
    obtain ⟨count', pushed⟩ := bdInitfreePair_ok second
    subst pushed
    obtain ⟨rfl, rfl⟩ := Prod.mk.inj (Except.ok.inj ran)
    simp only [pairBlocks_links] at count' ⊢
    constructor
    · simp only [count, count', toInt_add_toInt, toInt_toInt_add, List.length_append]
      push_cast
      rw [add_mul, ← add_assoc]
    · simp only [pushAll, List.foldl_append]

/-- What the loop of `bd_initfree` has done after the sizes below `n`. -/
theorem bdInitfree_loop {n : Nat}
    (ran : (List.range n).foldlM (initfreeLevel left right) (0, s) = .ok (free, s')) :
    free = toInt (∑ k ∈ Finset.range n, (s.levelBlocks left right k).length * BLK_SIZE k) ∧
      s' = { s with links :=
        ((List.range n).foldl (fun links k => pushAll links k (s.levelBlocks left right k)) s.links) } := by
  induction n generalizing free s' with
  | zero =>
      cases ran
      exact ⟨rfl, rfl⟩
  | succ n ih =>
      rw [List.range_succ, List.foldlM_append, bind_ok] at ran
      obtain ⟨⟨before, s₁⟩, first, ran⟩ := ran
      obtain ⟨rfl, rfl⟩ := ih first
      rw [List.foldlM_cons, bind_ok] at ran
      obtain ⟨⟨after, s₂⟩, level, ran⟩ := ran
      obtain ⟨rfl, rfl⟩ := Prod.mk.inj (Except.ok.inj ran)
      obtain ⟨rfl, rfl⟩ := initfreeLevel_ok level
      rw [Finset.sum_range_succ, List.range_succ, List.foldl_append]
      exact ⟨rfl, rfl⟩

/-- What is put on a list for a pair inside the array. -/
theorem pairBlocks_inside (s : Bd) {k i : Nat} (below : k + 1 < s.nsizes) (inside : i < NBLK s.nsizes k) :
    s.pairBlocks k i = if s.tree.alloc k i = s.tree.alloc k (buddy i) then []
      else [addr k (if s.tree.alloc k i then buddy i else i : Nat)] := by
  have inside' : buddy i < NBLK s.nsizes k := by
    have half := BuddyTree.buddy_div i
    rw [NBLK_eq below] at inside ⊢
    omega
  simp only [pairBlocks, buddy_eq, Bd.bitIsset_alloc (by omega : k < s.nsizes) inside,
    Bd.bitIsset_alloc (by omega : k < s.nsizes) inside']
  split_ifs <;> simp_all

section Level

variable {low high k : Nat}

theorem alloc_ofRange {top i : Nat} (below : k ≤ top) (inside : i < 2 ^ (top - k)) :
    (BuddyTree.ofRange top low high).alloc k i = decide (i < firstBlock low k ∨ lastBlock high k ≤ i) := by
  rw [BuddyTree.ofRange, decide_eq_decide, BuddyTree.inside_iff]
  omega

theorem addr_eq {i : Nat} (fits : (16 * high : Int) < 2 ^ 31) (inside : (i + 1) * 2 ^ k ≤ high) :
    addr k i = blockAt k i := by
  have block := blockAt_eq k i
  have positive : 0 < 2 ^ k := by positivity
  rw [Nat.add_mul] at inside
  rw [addr]
  unfold blockAt at block ⊢
  exact toInt_eq (by omega) (by omega)

/-- What is put on a list for a pair, by the ends of the managed memory. -/
theorem pairBlocks_range (s : Bd) (trees : s.tree = BuddyTree.ofRange s.maxsize low high)
    (below : k < s.maxsize) {i : Nat} (inside : i < NBLK s.nsizes k) :
    s.pairBlocks k i =
      if (i < firstBlock low k ∨ lastBlock high k ≤ i ↔
        buddy i < firstBlock low k ∨ lastBlock high k ≤ buddy i) then []
      else [addr k (if i < firstBlock low k ∨ lastBlock high k ≤ i then buddy i else i : Nat)] := by
  have below' : k + 1 < s.nsizes := by
    unfold Bd.maxsize at below
    omega
  have inside' : buddy i < NBLK s.nsizes k := by
    have half := BuddyTree.buddy_div i
    rw [NBLK_eq below'] at inside ⊢
    omega
  have allocOf : ∀ i, i < NBLK s.nsizes k →
      s.tree.alloc k i = decide (i < firstBlock low k ∨ lastBlock high k ≤ i) := by
    intro i less
    rw [trees]
    exact alloc_ofRange below.le less
  rw [pairBlocks_inside s below' inside, allocOf i inside, allocOf _ inside']
  simp only [decide_eq_decide, decide_eq_true_eq]

section Pairs

variable (s : Bd) (trees : s.tree = BuddyTree.ofRange s.maxsize low high) (below : k < s.maxsize)
  (inside : high ≤ 2 ^ s.maxsize) (fits : (16 * high : Int) < 2 ^ 31)

include below inside in
theorem lastBlock_le : lastBlock high k ≤ NBLK s.nsizes k := by
  rw [lastBlock]
  refine Nat.div_le_of_le_mul ?_
  rw [show NBLK s.nsizes k = 2 ^ (s.maxsize - k) from rfl, ← pow_add, Nat.add_sub_cancel' below.le]
  exact inside

include trees below inside fits in
/-- The first block in the memory, whose buddy is not there. -/
theorem pairBlocks_first (order : firstBlock low k < lastBlock high k) :
    s.pairBlocks k (firstBlock low k : Nat) =
      if firstBlock low k % 2 = 1 ∨ lastBlock high k = firstBlock low k + 1
      then [blockAt k (firstBlock low k)] else [] := by
  have last := lastBlock_le s below inside
  have here : ¬ (firstBlock low k < firstBlock low k ∨ lastBlock high k ≤ firstBlock low k) := by omega
  rw [pairBlocks_range s trees below (by omega), if_neg here, addr_eq fits (BuddyTree.lt_lastBlock.mp order)]
  obtain isEven | isOdd := Nat.mod_two_eq_zero_or_one (firstBlock low k)
  · rw [BuddyTree.buddy_even isEven]
    by_cases meets : lastBlock high k = firstBlock low k + 1
    · rw [if_neg (by omega), if_pos (.inr meets)]
    · rw [if_pos (by omega), if_neg (by omega)]
  · have first : ∀ i, firstBlock low k % 2 = 1 → firstBlock low k = i + 1 → i < firstBlock low k := by omega
    rw [BuddyTree.buddy_odd isOdd, if_neg (by omega), if_pos (.inl isOdd)]

include trees below inside fits in
/-- The block before the end of the memory, whose buddy is not there. -/
theorem pairBlocks_last (order : firstBlock low k < lastBlock high k) (odd : lastBlock high k % 2 = 1) :
    s.pairBlocks k (lastBlock high k : Nat) = [blockAt k (lastBlock high k - 1)] := by
  have below' : k + 1 < s.nsizes := by
    unfold Bd.maxsize at below
    omega
  have even := NBLK_eq below'
  have last := lastBlock_le s below inside
  have there : lastBlock high k < firstBlock low k ∨ lastBlock high k ≤ lastBlock high k := .inr le_rfl
  rw [pairBlocks_range s trees below (by omega), BuddyTree.buddy_odd odd, if_neg (by omega), if_pos there,
    addr_eq fits (BuddyTree.lt_lastBlock.mp (by omega))]

include trees below in
/-- A pair behind the memory is in use. -/
theorem pairBlocks_behind {i : Nat} (less : i < NBLK s.nsizes k) (even : i % 2 = 0)
    (past : lastBlock high k ≤ i) : s.pairBlocks k i = [] := by
  rw [pairBlocks_range s trees below less, BuddyTree.buddy_even even, if_pos (by omega)]

include trees below in
/-- If there is no block of the size in the memory, every pair is in use. -/
theorem pairBlocks_none {i : Nat} (less : i < NBLK s.nsizes k)
    (order : lastBlock high k ≤ firstBlock low k) : s.pairBlocks k i = [] := by
  rw [pairBlocks_range s trees below less, if_pos (by omega)]

end Pairs

/-- The lists get all free blocks, and when they get as many as there are, they get no others. -/
theorem levelBlocks_range (s : Bd) (trees : s.tree = BuddyTree.ofRange s.maxsize low high)
    (below : k < s.maxsize) (start : low < 2 ^ 31) (inside : high ≤ 2 ^ s.maxsize)
    (fits : (16 * high : Int) < 2 ^ 31) :
    (rangeBlocks low high k).length ≤ (s.levelBlocks (16 * low) (16 * high) k).length ∧
      ((s.levelBlocks (16 * low) (16 * high) k).length = (rangeBlocks low high k).length →
        s.levelBlocks (16 * low) (16 * high) k = (rangeBlocks low high k).map (blockAt k)) := by
  have last_eq : blkIndex k (16 * high) = lastBlock high k := blkIndex_eq k fits
  rw [levelBlocks, blkIndexNext_eq k start, last_eq]
  by_cases order : firstBlock low k < lastBlock high k
  · rw [if_neg (by omega), pairBlocks_first s trees below inside fits order, rangeBlocks]
    simp only [if_pos order]
    obtain lastEven | lastOdd := Nat.mod_two_eq_zero_or_one (lastBlock high k)
    · -- what is put there for the last pair is too much
      have notOdd : ¬ lastBlock high k % 2 = 1 := by omega
      rw [if_neg notOdd, List.append_nil]
      obtain firstEven | firstOdd := Nat.mod_two_eq_zero_or_one (firstBlock low k)
      · have notOne : ¬ (firstBlock low k % 2 = 1 ∨ lastBlock high k = firstBlock low k + 1) := by omega
        have notFirst : ¬ firstBlock low k % 2 = 1 := by omega
        rw [if_neg notOne, if_neg notFirst]
        simp
      · simp only [firstOdd, true_or, if_true]
        simp
    · rw [pairBlocks_last s trees below inside fits order lastOdd, if_pos lastOdd]
      obtain firstEven | firstOdd := Nat.mod_two_eq_zero_or_one (firstBlock low k)
      · have notFirst : ¬ firstBlock low k % 2 = 1 := by omega
        rw [if_neg notFirst]
        by_cases meets : lastBlock high k = firstBlock low k + 1
        · -- the only block is put there twice
          rw [if_pos (.inr meets)]
          simp
        · have notOne : ¬ (firstBlock low k % 2 = 1 ∨ lastBlock high k = firstBlock low k + 1) := by omega
          rw [if_neg notOne]
          simp
      · simp only [firstOdd, true_or, if_true]
        simp
  · rw [rangeBlocks, if_neg order]
    exact ⟨Nat.zero_le _, fun none_ => by rw [List.length_nil, List.length_eq_zero_iff] at none_; exact none_⟩

end Level

end Buddy

end Riscv2os.Xv7
