import Riscv2os.Std.BuddyRange
import Riscv2os.Xv7.BuddyHeap

/-!
# The bits after `bd_init`

`bd_mark` sets the bits of the blocks that touch a range. After the two calls in `bd_init` the
bits are the division in which the memory between the two ranges is free.
-/

namespace Riscv2os.Xv7

open Riscv2os.Std
open BuddyTree (setBit buddy firstBlock lastBlock rangeBlocks)
open Bd

/-- The blocks whose bits are set. The split bits of a size are set with its alloc bits. -/
structure Bd.Marked (s : Bd) (marks : Nat → Nat → Prop) : Prop where
  alloc : ∀ k i, s.tree.alloc k i = true ↔ marks k i
  split : ∀ k i, s.tree.split k i = true ↔ 0 < k ∧ marks k i

namespace Buddy

theorem firstBlock_eq (u k : Nat) :
    firstBlock u k = if u % 2 ^ k = 0 then u / 2 ^ k else u / 2 ^ k + 1 := by
  have positive : 0 < 2 ^ k := by positivity
  have less := Nat.mod_lt u positive
  have whole := Nat.div_add_mod u (2 ^ k)
  have parts : u + 2 ^ k - 1 = 2 ^ k * (u / 2 ^ k) + (u % 2 ^ k + 2 ^ k - 1) := by omega
  rw [firstBlock, parts, Nat.mul_add_div positive]
  split
  · next exact_ =>
    rw [Nat.div_eq_of_lt (show u % 2 ^ k + 2 ^ k - 1 < 2 ^ k by omega), add_zero]
  · have one : (u % 2 ^ k + 2 ^ k - 1) / 2 ^ k = 1 := Nat.div_eq_of_lt_le (by omega) (by omega)
    rw [one]

/-- `blk_index_next` in units. -/
theorem blkIndexNext_eq (k : Nat) {u : Nat} (small : u < 2 ^ 31) :
    blkIndexNext k (16 * u) = firstBlock u k := by
  have power : BLK_SIZE k = 16 * (2 ^ k : Nat) := by
    unfold BLK_SIZE LEAF_SIZE
    push_cast
    ring
  have quotient : (16 * u : Int).tdiv (BLK_SIZE k) = (u / 2 ^ k : Nat) := by
    rw [power, Int.mul_tdiv_mul_of_pos _ _ (by norm_num)]
    rfl
  have remainder : (16 * u : Int).tmod (BLK_SIZE k) = 16 * (u % 2 ^ k : Nat) := by
    rw [power, Int.mul_tmod_mul_of_pos _ _ (by norm_num)]
    rfl
  have bound : u / 2 ^ k < 2 ^ 31 := (Nat.div_le_self _ _).trans_lt small
  rw [blkIndexNext, quotient, remainder, firstBlock_eq]
  generalize u / 2 ^ k = q at bound ⊢
  rw [toInt_eq (by omega) (by exact_mod_cast bound)]
  by_cases exact_ : u % 2 ^ k = 0
  · rw [if_pos exact_, if_neg (by omega)]
  · rw [if_neg exact_, if_pos (by omega)]
    push_cast
    rfl

/-- The bits of a block are set. -/
theorem markBlock (s : Bd) {marks : Nat → Nat → Prop} (marked : s.Marked marks) {k i : Nat}
    (below : k < s.nsizes) (inside : i < NBLK s.nsizes k) :
    ∃ s', (do
        let s ← if k > 0 then s.bitPut (splitAt s.nsizes k) i true else .ok s
        s.bitPut (allocAt s.nsizes k) i true) = .ok s' ∧ s'.nsizes = s.nsizes ∧ s'.links = s.links ∧
      s'.Marked fun j x => marks j x ∨ (j = k ∧ x = i) := by
  have grows : ∀ (bits : Nat → Nat → Bool) j x,
      setBit bits k i true j x = true ↔ bits j x = true ∨ (j = k ∧ x = i) := by
    intro bits j x
    by_cases here : j = k ∧ x = i <;> simp [setBit, here]
  obtain ⟨bits, stored, trees⟩ : ∃ bits,
      (if k > 0 then s.bitPut (splitAt s.nsizes k) i true else .ok s) = .ok { s with bits := bits } ∧
      (tree { s with bits := bits }).alloc = s.tree.alloc ∧
      ∀ j x, (tree { s with bits := bits }).split j x = true ↔ 0 < j ∧ (marks j x ∨ (j = k ∧ x = i)) := by
    by_cases positive : 0 < k
    · obtain ⟨bits, stored, trees⟩ := Bd.bitPut_split positive below inside true
      refine ⟨bits, by rw [if_pos positive, stored], by rw [trees], fun j x => ?_⟩
      rw [trees, grows, marked.split]
      constructor
      · rintro (⟨above, was⟩ | ⟨rfl, rfl⟩)
        · exact ⟨above, .inl was⟩
        · exact ⟨positive, .inr ⟨rfl, rfl⟩⟩
      · rintro ⟨above, was | here⟩
        · exact .inl ⟨above, was⟩
        · exact .inr here
    · refine ⟨s.bits, by rw [if_neg positive], rfl, fun j x => ?_⟩
      refine (marked.split j x).trans ?_
      constructor
      · exact fun was => ⟨was.1, .inl was.2⟩
      · rintro ⟨above, was | ⟨rfl, _⟩⟩
        · exact ⟨above, was⟩
        · exact absurd above positive
  obtain ⟨bits', stored', trees'⟩ := Bd.bitPut_alloc (s := { s with bits := bits }) below inside true
  refine ⟨{ s with bits := bits' }, ?_, rfl, rfl, ?_, ?_⟩
  · by_cases positive : k > 0
    · simp only [if_pos positive] at stored ⊢
      rw [stored, ok_bind]
      exact stored'
    · simp only [if_neg positive] at stored ⊢
      rw [stored, ok_bind]
      exact stored'
  · intro j x
    rw [show tree { s with bits := bits' } = _ from trees', grows, trees.1, marked.alloc]
  · intro j x
    rw [show tree { s with bits := bits' } = _ from trees']
    exact trees.2 j x

/-- The inner loop of `bd_mark` sets the bits of the blocks from `first` up to `last`. -/
theorem markLevel_returns (s : Bd) {marks : Nat → Nat → Prop} (marked : s.Marked marks)
    {start stop : Int} {k first last : Nat} (below : k < s.nsizes)
    (starts : blkIndex k start = first) (stops : blkIndexNext k stop = last)
    (inside : last ≤ NBLK s.nsizes k) :
    ∃ s', markLevel start stop s k = .ok s' ∧ s'.nsizes = s.nsizes ∧ s'.links = s.links ∧
      s'.Marked fun j x => marks j x ∨ (j = k ∧ first ≤ x ∧ x < last) := by
  have loop : ∀ n, first + n ≤ NBLK s.nsizes k → ∃ s',
      (List.range n).foldlM (fun s (j : Nat) => do
        let s ← if k > 0 then s.bitPut (splitAt s.nsizes k) (first + j) true else .ok s
        s.bitPut (allocAt s.nsizes k) (first + j) true) s = .ok s' ∧ s'.nsizes = s.nsizes ∧
      s'.links = s.links ∧ s'.Marked fun j x => marks j x ∨ (j = k ∧ first ≤ x ∧ x < first + n) := by
    intro n
    induction n with
    | zero =>
        intro _
        refine ⟨s, rfl, rfl, rfl, fun j x => ?_, fun j x => ?_⟩
        · rw [marked.alloc]
          exact ⟨.inl, fun was => was.resolve_right (by omega)⟩
        · rw [marked.split]
          exact and_congr_right fun _ => ⟨.inl, fun was => was.resolve_right (by omega)⟩
    | succ n ih =>
        intro fits
        obtain ⟨s₁, ran, sizes, links, marked₁⟩ := ih (by omega)
        obtain ⟨s₂, ran', sizes', links', marked₂⟩ :=
          markBlock s₁ marked₁ (k := k) (i := first + n) (by omega) (by rw [sizes]; omega)
        refine ⟨s₂, ?_, sizes'.trans sizes, links'.trans links, ?_⟩
        · rw [List.range_succ, List.foldlM_append, ran, ok_bind, List.foldlM_cons]
          push_cast at ran'
          rw [ran']
          rfl
        · have more : ∀ j x, (marks j x ∨ (j = k ∧ first ≤ x ∧ x < first + n)) ∨ (j = k ∧ x = first + n) ↔
              marks j x ∨ (j = k ∧ first ≤ x ∧ x < first + (n + 1)) := by
            intro j x
            rw [or_assoc, ← and_or_left]
            exact or_congr_right (and_congr_right fun _ => by omega)
          exact ⟨fun j x => (marked₂.alloc j x).trans (more j x),
            fun j x => (marked₂.split j x).trans (and_congr_right fun _ => more j x)⟩
  by_cases order : first ≤ last
  · obtain ⟨s', ran, sizes, links, marked'⟩ := loop (last - first) (by omega)
    refine ⟨s', ?_, sizes, links, ?_⟩
    · rw [markLevel, starts, stops]
      simp only [show ((last : Int) - first).toNat = last - first by omega]
      exact ran
    · rwa [Nat.add_sub_cancel' order] at marked'
  · refine ⟨s, ?_, rfl, rfl, ?_⟩
    · rw [markLevel, starts, stops]
      simp only [show ((last : Int) - first).toNat = 0 by omega]
      rfl
    · have same : ∀ j x, marks j x ↔ marks j x ∨ (j = k ∧ first ≤ x ∧ x < last) := fun j x =>
        ⟨.inl, fun was => was.resolve_right (by omega)⟩
      exact ⟨fun j x => (marked.alloc j x).trans (same j x),
        fun j x => (marked.split j x).trans (and_congr_right fun _ => same j x)⟩

/-- `bd_mark` sets the bits of the blocks that touch the units from `start` up to `stop`. -/
theorem bdMark_returns (s : Bd) {marks : Nat → Nat → Prop} (marked : s.Marked marks) (start stop : Nat)
    (low : (16 * start : Int) < 2 ^ 31) (inside : stop ≤ 2 ^ s.maxsize) (small : stop < 2 ^ 31) :
    ∃ s', s.bdMark (16 * start) (16 * stop) = .ok s' ∧ s'.nsizes = s.nsizes ∧ s'.links = s.links ∧
      s'.Marked fun j x => marks j x ∨
        (j < s.nsizes ∧ lastBlock start j ≤ x ∧ x < firstBlock stop j) := by
  have loop : ∀ n ≤ s.nsizes, ∃ s', (List.range n).foldlM (markLevel (16 * start) (16 * stop)) s = .ok s' ∧
      s'.nsizes = s.nsizes ∧ s'.links = s.links ∧
      s'.Marked fun j x => marks j x ∨ (j < n ∧ lastBlock start j ≤ x ∧ x < firstBlock stop j) := by
    intro n
    induction n with
    | zero =>
        intro _
        refine ⟨s, rfl, rfl, rfl, fun j x => ?_, fun j x => ?_⟩
        · rw [marked.alloc]
          exact ⟨.inl, fun was => was.resolve_right (by omega)⟩
        · rw [marked.split]
          exact and_congr_right fun _ => ⟨.inl, fun was => was.resolve_right (by omega)⟩
    | succ n ih =>
        intro fits
        obtain ⟨s₁, ran, sizes, links, marked₁⟩ := ih (by omega)
        have room : firstBlock stop n ≤ NBLK s₁.nsizes n := by
          rw [BuddyTree.firstBlock_le, NBLK, ← pow_add, sizes]
          unfold Bd.maxsize at inside
          rwa [Nat.sub_add_cancel (by omega)]
        obtain ⟨s₂, ran', sizes', links', marked₂⟩ := markLevel_returns s₁ marked₁ (k := n)
          (by omega) (blkIndex_eq n low) (blkIndexNext_eq n small) room
        refine ⟨s₂, ?_, sizes'.trans sizes, links'.trans links, ?_⟩
        · rw [List.range_succ, List.foldlM_append, ran, ok_bind, List.foldlM_cons, ran']
          rfl
        · have more : ∀ j x, (marks j x ∨ (j < n ∧ lastBlock start j ≤ x ∧ x < firstBlock stop j)) ∨
              (j = n ∧ start / 2 ^ n ≤ x ∧ x < firstBlock stop n) ↔
              marks j x ∨ (j < n + 1 ∧ lastBlock start j ≤ x ∧ x < firstBlock stop j) := by
            intro j x
            rw [or_assoc]
            refine or_congr_right ⟨?_, ?_⟩
            · rintro (⟨less, touches⟩ | ⟨rfl, touches⟩)
              · exact ⟨by omega, touches⟩
              · exact ⟨by omega, touches⟩
            · rintro ⟨less, touches⟩
              obtain before | rfl := Nat.lt_succ_iff_lt_or_eq.mp less
              · exact .inl ⟨before, touches⟩
              · exact .inr ⟨rfl, touches⟩
          exact ⟨fun j x => (marked₂.alloc j x).trans (more j x),
            fun j x => (marked₂.split j x).trans (and_congr_right fun _ => more j x)⟩
  obtain ⟨s', ran, rest⟩ := loop s.nsizes le_rfl
  refine ⟨s', ?_, rest⟩
  rw [bdMark, if_neg (by unfold LEAF_SIZE; omega), ran]

theorem firstBlock_top {top k : Nat} (below : k ≤ top) : firstBlock (2 ^ top) k = 2 ^ (top - k) := by
  apply eq_of_forall_ge_iff
  intro i
  rw [BuddyTree.firstBlock_le]
  nth_rewrite 1 [← Nat.sub_add_cancel below]
  rw [pow_add]
  exact Nat.mul_le_mul_right_iff (by positivity)

/-- The two calls of `bd_mark` leave the division in which the memory between them is free. -/
theorem bdMark_tree (s : Bd) {low high : Nat} (marked : s.Marked fun j x =>
      (False ∨ (j < s.nsizes ∧ lastBlock 0 j ≤ x ∧ x < firstBlock low j)) ∨
        (j < s.nsizes ∧ lastBlock high j ≤ x ∧ x < firstBlock (2 ^ s.maxsize) j))
    (sizes : 0 < s.nsizes) (inside : low ≤ 2 ^ s.maxsize) :
    s.tree = BuddyTree.ofRange s.maxsize low high := by
  have same : ∀ j x, ((False ∨ (j < s.nsizes ∧ lastBlock 0 j ≤ x ∧ x < firstBlock low j)) ∨
        (j < s.nsizes ∧ lastBlock high j ≤ x ∧ x < firstBlock (2 ^ s.maxsize) j)) ↔
      j ≤ s.maxsize ∧ x < 2 ^ (s.maxsize - j) ∧ ¬ BuddyTree.Inside low high j x := by
    intro j x
    have bound : j < s.nsizes ↔ j ≤ s.maxsize := by
      unfold Bd.maxsize
      omega
    rw [false_or, bound, BuddyTree.inside_iff]
    by_cases below : j ≤ s.maxsize
    · have zero : lastBlock 0 j = 0 := Nat.zero_div _
      have lowest : firstBlock low j ≤ 2 ^ (s.maxsize - j) := by
        rw [BuddyTree.firstBlock_le, ← pow_add, Nat.sub_add_cancel below]
        exact inside
      rw [firstBlock_top below, zero]
      omega
    · omega
  have alloc : s.tree.alloc = (BuddyTree.ofRange s.maxsize low high).alloc := by
    ext j x
    rw [Bool.eq_iff_iff, marked.alloc, same]
    exact decide_eq_true_iff.symm
  have split : s.tree.split = (BuddyTree.ofRange s.maxsize low high).split := by
    ext j x
    rw [Bool.eq_iff_iff, marked.split, same]
    exact decide_eq_true_iff.symm
  cases trees : s.tree
  rw [trees] at alloc split
  simp only at alloc split
  rw [alloc, split]

end Buddy

end Riscv2os.Xv7
