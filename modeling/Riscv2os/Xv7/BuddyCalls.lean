import Riscv2os.Xv7.BuddyHeap

/-!
# The calls of the buddy allocator

What `bd_malloc` and `bd_free` do to a heap: one block becomes live, or stops being live, and
what is left is a heap again. Each loop has its own lemma, by induction on its rounds.
-/

namespace Riscv2os.Xv7

open Riscv2os.Std
open BuddyTree (setBit buddy)
open Bd

/-- A block that is in use. -/
abbrev Bd.LiveBlock (s : Bd) (left right : Int) (k i : Nat) : Prop :=
  s.tree.Live (Buddy.Reserved s.maxsize left right) k i

namespace Buddy

/-- Up to half of the largest number, `firstk` finds the first size that is large enough. -/
theorem firstkLoop_returns {rounds k m n : Nat} (small : m < 60) (fits : n ≤ 16 * 2 ^ m) (below : k ≤ m)
    (enough : m - k < rounds) :
    ∃ fk, firstkLoop rounds k (16 * 2 ^ k) n = .ok fk ∧ n ≤ 16 * 2 ^ fk ∧
      ∀ j, k ≤ j → j < fk → 16 * 2 ^ j < n := by
  induction rounds generalizing k with
  | zero => omega
  | succ rounds ih =>
      rw [firstkLoop]
      split
      · next more =>
        have less : k < m := by
          by_contra notLess
          obtain rfl : k = m := by omega
          omega
        have power : (2 : Nat) ^ (k + 1) ≤ 2 ^ 59 := Nat.pow_le_pow_right (by norm_num) (by omega)
        have size : 16 * 2 ^ k * 2 % 2 ^ 64 = 16 * 2 ^ (k + 1) := by
          rw [pow_succ] at power ⊢
          omega
        rw [size]
        obtain ⟨fk, ran, large, least⟩ := ih (k := k + 1) (by omega) (by omega)
        refine ⟨fk, ran, large, fun j low high => ?_⟩
        rcases Nat.eq_or_lt_of_le low with rfl | low
        · exact more
        · exact least j low high
      · next enough => exact ⟨k, rfl, by omega, by omega⟩

theorem firstk_returns {m n : Nat} (small : m < 60) (fits : n ≤ 16 * 2 ^ m) :
    ∃ fk, firstk n = .ok fk ∧ n ≤ 16 * 2 ^ fk ∧ ∀ j < fk, 16 * 2 ^ j < n := by
  have start : LEAF_SIZE.toNat = 16 * 2 ^ 0 := rfl
  rw [firstk, start]
  have rounds : m - 0 < 64 := by omega
  obtain ⟨fk, ran, large, least⟩ := firstkLoop_returns small fits (Nat.zero_le m) rounds
  exact ⟨fk, ran, large, fun j => least j (Nat.zero_le j)⟩

/-- Beyond that the size overflows to zero, and no number of rounds is enough. -/
theorem firstkLoop_endless {rounds n : Nat} (large : 2 ^ 63 < n) (k size : Nat)
    (power : size = 0 ∨ ∃ j < 60, size = 16 * 2 ^ j) : firstkLoop rounds k size n = .error .endless := by
  induction rounds generalizing k size with
  | zero => rfl
  | succ rounds ih =>
      rw [firstkLoop, if_pos]
      · refine ih (k + 1) _ ?_
        rcases power with rfl | ⟨j, inside, rfl⟩
        · exact .inl rfl
        · by_cases last : j = 59
          · subst last
            exact .inl rfl
          · refine .inr ⟨j + 1, by omega, ?_⟩
            have next : (2 : Nat) ^ (j + 1) ≤ 2 ^ 59 := Nat.pow_le_pow_right (by norm_num) (by omega)
            rw [pow_succ] at next ⊢
            omega
      · rcases power with rfl | ⟨j, inside, rfl⟩
        · omega
        · have most : (2 : Nat) ^ j ≤ 2 ^ 59 := Nat.pow_le_pow_right (by norm_num) (by omega)
          omega

namespace Heap

variable {s : Bd} {left right : Int} {lists : Nat → List Int} {k i : Nat}

/-- The split bits under a live block and around it. -/
theorem split_iff (heap : Heap s left right lists) (live : s.LiveBlock left right k i) {j : Nat}
    (below : j ≤ k) :
    s.tree.split (j + 1) (i * 2 ^ k / 2 ^ (j + 1)) = true ↔ j = k := by
  have leaf := live.leaf heap.valid
  constructor
  · intro isSplit
    by_contra differs
    have upTo := heap.valid.split_up isSplit (k - (j + 1)) (by have := leaf.1; omega)
    rw [show j + 1 + (k - (j + 1)) = k by omega, Nat.mul_div_cancel _ (by positivity),
      leaf.2.2] at upTo
    cases upTo
  · rintro rfl
    have parent := leaf.2.1
    rwa [pow_succ, mul_comm _ 2, Nat.mul_comm i, mul_comm (2 : Nat), Nat.mul_div_mul_left _ _ (by positivity)]

/-- `size` finds the size of a live block. -/
theorem size_live (heap : Heap s left right lists) (live : s.LiveBlock left right k i) :
    s.size (blockAt k i) = .ok k := by
  obtain ⟨above, inside, _⟩ := heap.leaf_lt (live.leaf heap.valid)
  have bound : i * 2 ^ k < 2 ^ s.maxsize :=
    (heap.leaf_managed (.inr live) (Nat.mul_div_cancel _ (by positivity))).2.2
  have search : ∀ rounds j, j ≤ k → k < j + rounds → s.sizeLoop (blockAt k i) rounds j = .ok k := by
    intro rounds
    induction rounds with
    | zero => omega
    | succ rounds ih =>
        intro j low high
        have room : i * 2 ^ k / 2 ^ (j + 1) < NBLK s.nsizes (j + 1) := by
          unfold NBLK
          rw [Nat.div_lt_iff_lt_mul (by positivity), ← pow_add]
          refine bound.trans_le (Nat.pow_le_pow_right (by norm_num) ?_)
          unfold Bd.maxsize
          omega
        have found := heap.split_iff live low
        rw [sizeLoop, if_neg (by omega), heap.blkIndex_leaf (.inr live),
          Bd.bitIsset_split (Nat.succ_pos j) (by omega) room, ok_bind]
        by_cases here : j = k
        · rw [if_pos (found.mpr here), here]
          rfl
        · rw [if_neg (fun isSplit => here (found.mp isSplit))]
          exact ih (j + 1) (by omega) (by omega)
  exact search s.nsizes 0 (Nat.zero_le _) (by omega)

/-- The loop of `bd_malloc` leaves a live block of the size that was asked for. -/
theorem splitDown_returns (heap : Heap s left right lists) (live : s.LiveBlock left right k i)
    {fk : Nat} (le : fk ≤ k) :
    ∃ s' j lists', splitDown (blockAt k i) fk k s = .ok s' ∧ s'.nsizes = s.nsizes ∧
      Heap s' left right lists' ∧ blockAt fk j = blockAt k i ∧
      ∀ a x, s'.LiveBlock left right a x ↔
        (s.LiveBlock left right a x ∧ ¬ (a = k ∧ x = i)) ∨ (a = fk ∧ x = j) := by
  induction k generalizing s i lists with
  | zero =>
      obtain rfl : fk = 0 := by omega
      refine ⟨s, i, lists, rfl, rfl, heap, rfl, fun a x => ?_⟩
      by_cases here : a = 0 ∧ x = i
      · simp [here, live]
      · simp [here]
  | succ k ih =>
      rw [splitDown]
      split
      · next more =>
        obtain ⟨s₁, s₂, lists', marked, stored, sizes, trees, heap'⟩ := heap.split live
        have lives : ∀ a x, Bd.LiveBlock
            { s₂ with links := lstPush s₂.links (freeHead k) (blockAt (k + 1) i + BLK_SIZE k) }
            left right a x ↔ (s.LiveBlock left right a x ∧ ¬ (a = k + 1 ∧ x = i)) ∨
              (a = k ∧ x = 2 * i) := by
          intro a x
          rw [← BuddyTree.live_halve heap.valid live, ← trees, Bd.maxsize, ← sizes]
          exact Iff.rfl
        obtain ⟨s', j, final, ran, sizes', heap'', same, after⟩ :=
          ih heap' ((lives k (2 * i)).mpr (.inr ⟨rfl, rfl⟩)) (by omega)
        refine ⟨s', j, final, ?_, sizes'.trans sizes, heap'', ?_, fun a x => ?_⟩
        · rw [marked, ok_bind, stored, ok_bind, blockAt_succ, ← ran, ← blockAt_succ]
        · rw [same, blockAt_succ]
        · rw [after, lives]
          have notHalf : a = k ∧ x = 2 * i → ¬ s.LiveBlock left right a x := by
            rintro ⟨rfl, rfl⟩ half
            have whole := heap.valid.halves live (j := 2 * i) (by omega)
            rw [half.1] at whole
            cases whole
          constructor
          · rintro (⟨was | half, apart⟩ | last)
            · exact .inl was
            · exact absurd half apart
            · exact .inr last
          · rintro (was | last)
            · exact .inl ⟨.inl was, fun half => notHalf half was.1⟩
            · exact .inr last
      · obtain rfl : fk = k + 1 := by omega
        refine ⟨s, i, lists, rfl, rfl, heap, rfl, fun a x => ?_⟩
        by_cases here : a = k + 1 ∧ x = i
        · simp [here, live]
        · simp [here]

/-- The loop of `bd_free` ends with a block that, on its list, makes a heap. -/
theorem mergeUp_returns (heap : Heap s left right lists) (live : s.LiveBlock left right k i) :
    ∃ k' p s' lists', mergeUp (s.maxsize - k) k (blockAt k i) s = .ok (k', p, s') ∧
      s'.nsizes = s.nsizes ∧
      Heap { s' with links := lstPush s'.links (freeHead k') p } left right lists' ∧
      ∀ a x, Bd.LiveBlock s' left right a x ↔ s.LiveBlock left right a x ∧ ¬ (a = k ∧ x = i) := by
  induction rounds : s.maxsize - k generalizing s k i lists with
  | zero =>
      have := (live.leaf heap.valid).1
      omega
  | succ n ih =>
      have leaf := live.leaf heap.valid
      obtain ⟨bits, stored, trees, isset⟩ := heap.unmark live
      rw [mergeUp, heap.blkIndex_self (.inr live), stored, ok_bind, buddy_eq, isset, ok_bind]
      cases used : s.tree.alloc k (buddy i) with
      | true =>
          obtain ⟨lists', heap'⟩ := heap.giveBack live used trees
          refine ⟨k, blockAt k i, { s with bits := bits }, lists', rfl, rfl, heap', fun a x => ?_⟩
          rw [← BuddyTree.live_release, ← trees]
          exact Iff.rfl
      | false =>
          have free : s.tree.Free s.maxsize k (buddy i) :=
            ⟨leaf.1, by rw [BuddyTree.buddy_div]; exact leaf.2.1, used⟩
          obtain ⟨place, s', lists', joined, sizes, merged, heap'⟩ := heap.join live free trees
          have pair : (if ((buddy i : Nat) : Int).tmod 2 = 0 then blockAt k (buddy i) else blockAt k i) =
              blockAt (k + 1) (i / 2) := by
            have mod : ((buddy i : Nat) : Int).tmod 2 = (buddy i % 2 : Nat) := rfl
            rw [mod, blockAt_succ]
            unfold buddy
            by_cases even : i % 2 = 0
            · have second : ¬ ((i + 1) % 2 : Nat) = (0 : Int) := by omega
              rw [if_pos even, if_neg second, show 2 * (i / 2) = i by omega]
            · have first : ((i - 1) % 2 : Nat) = (0 : Int) := by omega
              rw [if_neg even, if_pos first, show 2 * (i / 2) = i - 1 by omega]
          have lives : ∀ a x, s'.LiveBlock left right a x ↔
              (s.LiveBlock left right a x ∧ ¬ (a = k ∧ x = i)) ∨ (a = k + 1 ∧ x = i / 2) := by
            intro a x
            rw [← BuddyTree.live_merge heap.valid live, ← merged, Bd.maxsize, ← sizes]
            exact Iff.rfl
          obtain ⟨k', p, s'', final, ran, sizes', heap'', after⟩ :=
            ih heap' ((lives (k + 1) (i / 2)).mpr (.inr ⟨rfl, rfl⟩)) (by
              unfold Bd.maxsize at rounds ⊢
              omega)
          refine ⟨k', p, s'', final, ?_, sizes'.trans sizes, heap'', fun a x => ?_⟩
          · simp only [Bool.false_eq_true, if_false, place, pair]
            rw [joined, ok_bind, ran]
          · rw [after, lives]
            have notPair : a = k + 1 ∧ x = i / 2 → ¬ s.LiveBlock left right a x := by
              rintro ⟨rfl, rfl⟩ whole
              have isSplit := leaf.2.1
              rw [whole.2.1] at isSplit
              cases isSplit
            constructor
            · rintro ⟨was | above, apart⟩
              · exact was
              · exact absurd above apart
            · intro was
              exact ⟨.inl was, fun above => notPair above was.1⟩

/-- Freeing a live block makes a heap in which that block is not live. -/
theorem bdFree_returns (heap : Heap s left right lists) (live : s.LiveBlock left right k i) :
    ∃ s' lists', s.bdFree (blockAt k i) = .ok s' ∧ s'.nsizes = s.nsizes ∧ Heap s' left right lists' ∧
      ∀ a x, s'.LiveBlock left right a x ↔ s.LiveBlock left right a x ∧ ¬ (a = k ∧ x = i) := by
  obtain ⟨k', p, s', lists', ran, sizes, heap', after⟩ := heap.mergeUp_returns live
  refine ⟨{ s' with links := lstPush s'.links (freeHead k') p }, lists', ?_, sizes, heap', after⟩
  rw [bdFree, heap.size_live live, ok_bind, ran]
  rfl

/-- A list whose head does not point to itself starts with a free block. -/
theorem first_free (heap : Heap s left right lists) (below : k < s.nsizes)
    (some_ : s.links.next (freeHead k) ≠ freeHead k) :
    ∃ i, s.links.next (freeHead k) = blockAt k i ∧ s.tree.Free s.maxsize k i := by
  have path := (heap.rings.ring k below).path
  cases nodes : lists k with
  | nil =>
      rw [nodes] at path
      exact absurd path.1 some_
  | cons p rest =>
      rw [nodes] at path
      rw [path.1]
      exact (heap.free k below p).mp (by simp [nodes])

/-- A part of a free block is not in use. -/
theorem not_live_of_free (heap : Heap s left right lists) (free : s.tree.Free s.maxsize k i) {j x : Nat}
    (same : blockAt j x = blockAt k i) : ¬ s.LiveBlock left right j x := by
  intro live
  rw [blockAt_eq, blockAt_eq] at same
  have unit : x * 2 ^ j = i * 2 ^ k := by omega
  have leaf : s.tree.Leaf s.maxsize j (i * 2 ^ k / 2 ^ j) := by
    rw [← unit, Nat.mul_div_cancel _ (by positivity)]
    exact live.leaf heap.valid
  have leaf' : s.tree.Leaf s.maxsize k (i * 2 ^ k / 2 ^ k) := by
    rw [Nat.mul_div_cancel _ (by positivity)]
    exact free.leaf heap.valid
  obtain rfl := heap.valid.leaf_unique leaf leaf'
  obtain rfl : x = i := Nat.eq_of_mul_eq_mul_right (by positivity) unit
  have alloc := live.1
  rw [free.2.2] at alloc
  cases alloc

/-- `bd_malloc` returns no block, or one that was not in use and is large enough. -/
theorem bdMalloc_returns (heap : Heap s left right lists) {n : Nat} (fits : n ≤ HEAP_SIZE s.nsizes) :
    s.bdMalloc n = .ok (none, s) ∨
      ∃ s' k i lists', s.bdMalloc n = .ok (some (blockAt k i), s') ∧ s'.nsizes = s.nsizes ∧
        Heap s' left right lists' ∧ n ≤ BLK_SIZE k ∧ ¬ s.LiveBlock left right k i ∧
        ∀ a x, s'.LiveBlock left right a x ↔ s.LiveBlock left right a x ∨ (a = k ∧ x = i) := by
  have top := heap.bounds.heap
  rw [HEAP_SIZE_eq] at fits top
  have small : s.nsizes - 1 < 28 := by
    have : 2 ^ (s.nsizes - 1) < 2 ^ 28 := by omega
    exact (Nat.pow_lt_pow_iff_right (by norm_num)).mp this
  obtain ⟨fk, first, enough, -⟩ := firstk_returns (n := n) (m := s.nsizes - 1) (by omega) (by omega)
  rw [bdMalloc, first, ok_bind]
  cases found : (List.range' fk (s.nsizes - fk)).find? fun k => !lstEmpty s.links (freeHead k) with
  | none => exact .inl rfl
  | some k =>
      have inside := List.mem_range'_1.mp (List.mem_of_find?_eq_some found)
      have some_ : s.links.next (freeHead k) ≠ freeHead k := by
        simpa [lstEmpty] using List.find?_some found
      obtain ⟨i, block, free⟩ := heap.first_free (by omega) some_
      obtain ⟨s₁, lists', stored, sizes, trees, heap'⟩ := heap.pop free
      have lives : ∀ a x, s₁.LiveBlock left right a x ↔
          s.LiveBlock left right a x ∨ (a = k ∧ x = i) := by
        intro a x
        rw [← BuddyTree.live_take heap.valid free, ← trees, Bd.maxsize, ← sizes]
        exact Iff.rfl
      obtain ⟨s', j, final, ran, sizes', heap'', same, after⟩ :=
        heap'.splitDown_returns ((lives k i).mpr (.inr ⟨rfl, rfl⟩)) inside.1
      refine .inr ⟨s', fk, j, final, ?_, sizes'.trans sizes, heap'', ?_, heap.not_live_of_free free same,
        fun a x => ?_⟩
      · have popped : lstPop s.links (freeHead k) =
            .ok (blockAt k i, lstRemove s.links (blockAt k i)) := by
          rw [lstPop, if_neg some_, block]
        rw [same]
        exact bind_ok.mpr ⟨_, popped, bind_ok.mpr ⟨s₁, stored, bind_ok.mpr ⟨s', ran, rfl⟩⟩⟩
      · unfold BLK_SIZE LEAF_SIZE
        rw [mul_comm]
        exact_mod_cast enough
      · rw [after, lives]
        have notFree : a = k ∧ x = i → ¬ s.LiveBlock left right a x := by
          rintro ⟨rfl, rfl⟩
          exact heap.not_live_of_free free rfl
        constructor
        · rintro (⟨was | here, apart⟩ | last)
          · exact .inl was
          · exact absurd here apart
          · exact .inr last
        · rintro (was | last)
          · exact .inl ⟨.inl was, fun here => notFree here was⟩
          · exact .inr last

end Heap

end Buddy

end Riscv2os.Xv7
