import Riscv2os.Xv7.BuddyBits

/-!
# The heap of the buddy allocator

`Heap` says that the bits are a division of the heap and that the free lists hold its free
blocks. The steps inside the loops of `bd_malloc` and `bd_free` are the operations of the
division, and the loops come down to these.
-/

namespace Riscv2os.Xv7

open Riscv2os.Std
open BuddyTree (setBit buddy)
open Bd

namespace Buddy

/-- What `bd_init` makes sure of about the bounds of the managed memory. -/
structure Bounds (nsizes : Nat) (left right : Int) : Prop where
  sizes : 0 < nsizes
  heap : HEAP_SIZE nsizes ≤ 2 ^ 31
  order : left ≤ right
  inside : right ≤ HEAP_SIZE nsizes
  fits : right < 2 ^ 31
  left_dvd : 16 ∣ left
  right_dvd : 16 ∣ right
  heads : 32 * (nsizes : Int) ≤ left

/-- The units in front of the managed memory and behind it. -/
def Reserved (top : Nat) (left right : Int) (u : Nat) : Prop :=
  u < 2 ^ top ∧ ((16 * u : Int) < left ∨ right ≤ 16 * u)

/-- The bits are a division, and the lists hold its free blocks. -/
structure Heap (s : Bd) (left right : Int) (lists : Nat → List Int) : Prop where
  bounds : Bounds s.nsizes left right
  valid : s.tree.Valid s.maxsize (Reserved s.maxsize left right)
  rings : s.links.Rings (fun k => k < s.nsizes) freeHead lists
  free : ∀ k < s.nsizes, ∀ p, p ∈ lists k ↔ ∃ i, p = blockAt k i ∧ s.tree.Free s.maxsize k i

theorem blockAt_succ (k i : Nat) : blockAt (k + 1) i = blockAt k (2 * i) := by
  unfold blockAt
  rw [BLK_SIZE_succ]
  push_cast
  ring

theorem blockAt_half (k i : Nat) : blockAt k (2 * i) + BLK_SIZE k = blockAt k (2 * i + 1) := by
  unfold blockAt
  push_cast
  ring

theorem blockAt_injective {k i j : Nat} (same : blockAt k i = blockAt k j) : i = j := by
  have := mul_right_cancel₀ (BLK_SIZE_pos k).ne' same
  exact_mod_cast this

theorem lstRemove_eq (links : Links Int) (e : Int) : lstRemove links e = links.unlink e := by
  have kept : ∀ (f : Int → Int) (x : Int), Function.update f x (f e) e = f e := by
    intro f x
    rw [Function.update_apply]
    split <;> rfl
  simp only [lstRemove, Links.unlink, Links.setNext, Links.setPrev, kept]

theorem lstPush_eq (links : Links Int) (lst p : Int) : lstPush links lst p = links.pushFront lst p := rfl

theorem HEAP_SIZE_eq (nsizes : Nat) : HEAP_SIZE nsizes = 16 * (2 ^ (nsizes - 1) : Nat) := by
  unfold HEAP_SIZE BLK_SIZE LEAF_SIZE
  push_cast
  ring

theorem NBLK_eq {nsizes k : Nat} (above : k + 1 < nsizes) : NBLK nsizes k = 2 * NBLK nsizes (k + 1) := by
  unfold NBLK
  rw [show nsizes - 1 - k = nsizes - 1 - (k + 1) + 1 by omega, pow_succ, mul_comm]

/-- A block of a level lies inside the heap. -/
theorem unit_lt {top k i : Nat} (below : k ≤ top) (inside : i < 2 ^ (top - k)) :
    (i + 1) * 2 ^ k ≤ 2 ^ top := by
  calc (i + 1) * 2 ^ k ≤ 2 ^ (top - k) * 2 ^ k := Nat.mul_le_mul_right _ inside
    _ = 2 ^ top := by rw [← pow_add, Nat.sub_add_cancel below]

/-- The number of the buddy, as `bd_free` computes it. -/
theorem buddy_eq (i : Nat) :
    (if (i : Int).tmod 2 = 0 then (i : Int) + 1 else (i : Int) - 1) = (buddy i : Nat) := by
  unfold buddy
  have mod : (i : Int).tmod 2 = (i % 2 : Nat) := rfl
  rw [mod]
  split <;> split <;> omega

namespace Heap

variable {s : Bd} {left right : Int} {lists : Nat → List Int} {k i : Nat}

/-- A leaf that is not reserved lies in the managed memory. -/
theorem leaf_managed (heap : Heap s left right lists)
    (leaf : s.tree.Free s.maxsize k i ∨ s.tree.Live (Reserved s.maxsize left right) k i) {u : Nat}
    (inside : u / 2 ^ k = i) : left ≤ 16 * (u : Int) ∧ (16 * u : Int) < right ∧ u < 2 ^ s.maxsize := by
  have isLeaf : s.tree.Leaf s.maxsize k i := leaf.elim (·.leaf heap.valid) (·.leaf heap.valid)
  have bound : u < 2 ^ s.maxsize := by
    obtain ⟨_, parentBound⟩ := heap.valid.bounded (heap.valid.alloc_of_split isLeaf.2.1)
    have halves : i < 2 ^ (s.maxsize - k) := by
      have below := isLeaf.1
      rw [show s.maxsize - k = s.maxsize - (k + 1) + 1 by omega, pow_succ]
      omega
    have top := unit_lt isLeaf.1.le halves
    have : u < (i + 1) * 2 ^ k := by
      rw [← inside]
      exact Nat.lt_mul_of_div_lt (Nat.lt_succ_self _) (by positivity)
    omega
  have notHeld : ¬ Reserved s.maxsize left right u := by
    intro held
    obtain rfl := heap.valid.reserved_unique held (inside ▸ isLeaf)
    rw [pow_zero, Nat.div_one] at inside
    subst inside
    obtain free | live := leaf
    · have alloc := heap.valid.reserved_alloc held
      rw [free.2.2] at alloc
      cases alloc
    · exact live.2.2 ⟨rfl, held⟩
  have : ¬ ((16 * u : Int) < left ∨ right ≤ 16 * u) := fun outside => notHeld ⟨bound, outside⟩
  exact ⟨by omega, by omega, bound⟩

/-- Leaves that are not reserved are addressed without overflow. -/
theorem blkIndex_leaf (heap : Heap s left right lists)
    (leaf : s.tree.Free s.maxsize k i ∨ s.tree.Live (Reserved s.maxsize left right) k i) (j : Nat) :
    blkIndex j (blockAt k i) = (i * 2 ^ k / 2 ^ j : Nat) := by
  have managed := heap.leaf_managed leaf (u := i * 2 ^ k) (Nat.mul_div_cancel _ (by positivity))
  rw [blockAt_eq]
  exact blkIndex_eq j (managed.2.1.trans heap.bounds.fits)

/-- The indices of leaves are in range. -/
theorem leaf_lt (heap : Heap s left right lists) (leaf : s.tree.Leaf s.maxsize k i) :
    k + 1 < s.nsizes ∧ i < NBLK s.nsizes k ∧ i / 2 < NBLK s.nsizes (k + 1) := by
  obtain ⟨_, bound⟩ := heap.valid.bounded (heap.valid.alloc_of_split leaf.2.1)
  have below := leaf.1
  have sizes := heap.bounds.sizes
  unfold Bd.maxsize at below bound
  unfold NBLK
  rw [show s.nsizes - 1 - k = s.nsizes - 1 - (k + 1) + 1 by omega, pow_succ]
  omega

/-- The address of a free block is not in another list, and not a head. -/
theorem fresh (heap : Heap s left right lists)
    (live : s.tree.Live (Reserved s.maxsize left right) k i) {u : Nat} (inside : u / 2 ^ k = i)
    (j : Nat) (below : j < s.nsizes) : (16 * u : Int) ∉ freeHead j :: lists j := by
  have managed := heap.leaf_managed (.inr live) inside
  rw [List.mem_cons, not_or]
  constructor
  · have heads := heap.bounds.heads
    unfold freeHead SZ_INFO
    omega
  · intro member
    obtain ⟨x, same, free⟩ := (heap.free j below _).mp member
    rw [blockAt_eq] at same
    have unit : u = x * 2 ^ j := by omega
    have leaf : s.tree.Leaf s.maxsize j (u / 2 ^ j) := by
      rw [unit, Nat.mul_div_cancel _ (by positivity)]
      exact free.leaf heap.valid
    have level := heap.valid.leaf_unique (inside ▸ live.leaf heap.valid) leaf
    subst level
    have index : i = x := by rw [← inside, unit, Nat.mul_div_cancel _ (by positivity)]
    subst index
    have alloc := live.1
    rw [free.2.2] at alloc
    cases alloc

/-- The address of the first half of a block. -/
theorem blkIndex_self (heap : Heap s left right lists)
    (leaf : s.tree.Free s.maxsize k i ∨ s.tree.Live (Reserved s.maxsize left right) k i) :
    blkIndex k (blockAt k i) = i := by
  rw [heap.blkIndex_leaf leaf, Nat.mul_div_cancel _ (by positivity)]

/-- A list without one block holds the free blocks without that block. -/
theorem without (heap : Heap s left right lists) {tree : BuddyTree} (below : k < s.nsizes)
    (trees : ∀ j x, tree.Free s.maxsize j x ↔ s.tree.Free s.maxsize j x ∧ ¬ (j = k ∧ x = i)) :
    ∀ j < s.nsizes, ∀ q, q ∈ Function.update lists k ((lists k).erase (blockAt k i)) j ↔
      ∃ x, q = blockAt j x ∧ tree.Free s.maxsize j x := by
  intro j inside q
  rw [Links.Rings.mem_update_erase (heap.rings.ring k below).nodup.of_cons, heap.free j inside]
  constructor
  · rintro ⟨⟨x, rfl, free⟩, apart⟩
    refine ⟨x, rfl, (trees j x).mpr ⟨free, ?_⟩⟩
    rintro ⟨rfl, rfl⟩
    exact apart ⟨rfl, rfl⟩
  · rintro ⟨x, rfl, free⟩
    obtain ⟨was, apart⟩ := (trees j x).mp free
    refine ⟨⟨x, rfl, was⟩, ?_⟩
    rintro ⟨rfl, same⟩
    exact apart ⟨rfl, blockAt_injective same⟩

/-- A list with one more block holds the free blocks with that block. -/
theorem with_ (heap : Heap s left right lists) {tree : BuddyTree}
    (trees : ∀ j x, tree.Free s.maxsize j x ↔ s.tree.Free s.maxsize j x ∨ (j = k ∧ x = i)) :
    ∀ j < s.nsizes, ∀ q, q ∈ Function.update lists k (blockAt k i :: lists k) j ↔
      ∃ x, q = blockAt j x ∧ tree.Free s.maxsize j x := by
  intro j inside q
  rw [Links.Rings.mem_update_cons, heap.free j inside]
  constructor
  · rintro (⟨x, rfl, free⟩ | ⟨rfl, rfl⟩)
    · exact ⟨x, rfl, (trees j x).mpr (.inl free)⟩
    · exact ⟨i, rfl, (trees j i).mpr (.inr ⟨rfl, rfl⟩)⟩
  · rintro ⟨x, rfl, free⟩
    obtain was | ⟨rfl, rfl⟩ := (trees j x).mp free
    · exact .inl ⟨x, rfl, was⟩
    · exact .inr ⟨rfl, rfl⟩

/-- A heap from the tree of its bits. -/
theorem of_tree {s' : Bd} {t : BuddyTree} (trees : s'.tree = t)
    (bounds : Bounds s'.nsizes left right)
    (valid : t.Valid s'.maxsize (Reserved s'.maxsize left right))
    (rings : s'.links.Rings (fun k => k < s'.nsizes) freeHead lists)
    (free : ∀ k < s'.nsizes, ∀ p, p ∈ lists k ↔ ∃ i, p = blockAt k i ∧ t.Free s'.maxsize k i) :
    Heap s' left right lists := by
  subst trees
  exact ⟨bounds, valid, rings, free⟩

/-- A free block is taken from its list and marked. -/
theorem pop (heap : Heap s left right lists) (free : s.tree.Free s.maxsize k i) :
    ∃ s' lists', bitPut { s with links := lstRemove s.links (blockAt k i) } (allocAt s.nsizes k)
        (blkIndex k (blockAt k i)) true = .ok s' ∧ s'.nsizes = s.nsizes ∧
      s'.tree = s.tree.take k i ∧ Heap s' left right lists' := by
  obtain ⟨above, inside, _⟩ := heap.leaf_lt (free.leaf heap.valid)
  have below : k < s.nsizes := by omega
  obtain ⟨bits, stored, trees⟩ := Bd.bitPut_alloc
    (s := { s with links := lstRemove s.links (blockAt k i) }) below inside true
  have member : blockAt k i ∈ lists k := (heap.free k below _).mpr ⟨i, rfl, free⟩
  refine ⟨{ s with bits := bits, links := lstRemove s.links (blockAt k i) },
    Function.update lists k ((lists k).erase (blockAt k i)), ?_, rfl, trees,
    of_tree (t := s.tree.take k i) trees heap.bounds (heap.valid.take free) ?_ ?_⟩
  · rw [heap.blkIndex_self (.inl free), stored]
  · simp only [lstRemove_eq]
    exact heap.rings.unlink below member
  · exact heap.without below fun j x => BuddyTree.free_take

/-- An allocated block is split, and its second half put on a list. -/
theorem split (heap : Heap s left right lists)
    (live : s.tree.Live (Reserved s.maxsize left right) (k + 1) i) :
    ∃ s₁ s₂ lists', s.bitPut (splitAt s.nsizes (k + 1)) (blkIndex (k + 1) (blockAt (k + 1) i)) true =
        .ok s₁ ∧
      s₁.bitPut (allocAt s₁.nsizes k) (blkIndex k (blockAt (k + 1) i)) true = .ok s₂ ∧
      s₂.nsizes = s.nsizes ∧ s₂.tree = s.tree.halve k i ∧
      Heap { s₂ with links := lstPush s₂.links (freeHead k) (blockAt (k + 1) i + BLK_SIZE k) }
        left right lists' := by
  obtain ⟨above, inside, _⟩ := heap.leaf_lt (live.leaf heap.valid)
  have firstInside : 2 * i < NBLK s.nsizes k := by
    rw [NBLK_eq (by omega)]
    omega
  have first : blkIndex k (blockAt (k + 1) i) = (2 * i : Nat) := by
    rw [heap.blkIndex_leaf (.inr live), pow_succ, mul_comm _ 2, ← mul_assoc,
      Nat.mul_div_cancel _ (by positivity), mul_comm]
  obtain ⟨bits, marked, split⟩ := Bd.bitPut_split (Nat.succ_pos k) (by omega) inside true
  obtain ⟨bits', stored, alloc⟩ := Bd.bitPut_alloc
    (s := { s with bits := bits }) (show k < s.nsizes by omega) firstInside true
  have trees : tree { s with bits := bits' } = s.tree.halve k i := by
    rw [alloc, split]
    rfl
  have fresh := heap.fresh live (u := (2 * i + 1) * 2 ^ k) (by
    rw [pow_succ, mul_comm, Nat.mul_div_mul_left _ _ (by positivity)]
    omega)
  rw [← blockAt_eq, ← blockAt_half, ← blockAt_succ] at fresh
  refine ⟨{ s with bits := bits }, { s with bits := bits' },
    Function.update lists k ((blockAt (k + 1) i + BLK_SIZE k) :: lists k), ?_, ?_, rfl, trees,
    of_tree (t := s.tree.halve k i) trees heap.bounds (heap.valid.halve live) ?_ ?_⟩
  · rw [heap.blkIndex_self (.inr live)]
    exact marked
  · rw [first]
    exact stored
  · simp only [lstPush_eq]
    exact heap.rings.pushFront (by omega : k < s.nsizes) fresh
  · rw [blockAt_succ, blockAt_half]
    exact heap.with_ fun j x => BuddyTree.free_halve heap.valid live

/-- The bit of the buddy of a live block. -/
theorem buddy_inside (heap : Heap s left right lists) (leaf : s.tree.Leaf s.maxsize k i) :
    buddy i < NBLK s.nsizes k := by
  obtain ⟨above, _, parent⟩ := heap.leaf_lt leaf
  have half := BuddyTree.buddy_div i
  rw [NBLK_eq above]
  omega

/-- The bit of a live block is cleared. What is left to do is told by the bit of its buddy. -/
theorem unmark (heap : Heap s left right lists)
    (live : s.tree.Live (Reserved s.maxsize left right) k i) :
    ∃ bits, s.bitPut (allocAt s.nsizes k) i false = .ok { s with bits := bits } ∧
      tree { s with bits := bits } = s.tree.release k i ∧
      bitIsset { s with bits := bits } (allocAt s.nsizes k) (buddy i) =
        .ok (s.tree.alloc k (buddy i)) := by
  have leaf := live.leaf heap.valid
  obtain ⟨above, inside, _⟩ := heap.leaf_lt leaf
  obtain ⟨bits, stored, trees⟩ := Bd.bitPut_alloc (s := s) (by omega) inside false
  refine ⟨bits, stored, trees, ?_⟩
  rw [Bd.bitIsset_alloc (s := { s with bits := bits }) (by simp only; omega) (heap.buddy_inside leaf),
    trees]
  simp only [BuddyTree.setBit_ne _ _ (fun same => BuddyTree.buddy_ne i same.2 : ¬ (k = k ∧ buddy i = i))]

/-- A live block with a used buddy is put on its list. -/
theorem giveBack (heap : Heap s left right lists)
    (live : s.tree.Live (Reserved s.maxsize left right) k i)
    (used : s.tree.alloc k (buddy i) = true) {bits : Nat → Bool}
    (trees : tree { s with bits := bits } = s.tree.release k i) :
    ∃ lists', Heap { s with bits := bits, links := lstPush s.links (freeHead k) (blockAt k i) }
      left right lists' := by
  obtain ⟨above, inside, _⟩ := heap.leaf_lt (live.leaf heap.valid)
  have fresh := heap.fresh live (u := i * 2 ^ k) (Nat.mul_div_cancel _ (by positivity))
  rw [← blockAt_eq] at fresh
  refine ⟨Function.update lists k (blockAt k i :: lists k),
    of_tree (t := s.tree.release k i) trees heap.bounds (heap.valid.release live used) ?_ ?_⟩
  · simp only [lstPush_eq]
    exact heap.rings.pushFront (by omega : k < s.nsizes) fresh
  · exact heap.with_ fun j x => BuddyTree.free_release heap.valid live

/-- A live block is merged with its free buddy. -/
theorem join (heap : Heap s left right lists)
    (live : s.tree.Live (Reserved s.maxsize left right) k i)
    (free : s.tree.Free s.maxsize k (buddy i)) {bits : Nat → Bool}
    (trees : tree { s with bits := bits } = s.tree.release k i) :
    addr k (buddy i : Nat) = blockAt k (buddy i) ∧
    ∃ s' lists', bitPut { s with bits := bits, links := lstRemove s.links (blockAt k (buddy i)) }
        (splitAt s.nsizes (k + 1)) (blkIndex (k + 1) (blockAt (k + 1) (i / 2))) false = .ok s' ∧
      s'.nsizes = s.nsizes ∧ s'.tree = s.tree.merge k i ∧ Heap s' left right lists' := by
  obtain ⟨above, inside, parent⟩ := heap.leaf_lt (live.leaf heap.valid)
  have below : k < s.nsizes := by omega
  have managed := heap.leaf_managed (.inl free) (u := buddy i * 2 ^ k)
    (Nat.mul_div_cancel _ (by positivity))
  rw [← blockAt_eq] at managed
  have fits := heap.bounds.fits
  have member : blockAt k (buddy i) ∈ lists k := (heap.free k below _).mpr ⟨_, rfl, free⟩
  have index : blkIndex (k + 1) (blockAt (k + 1) (i / 2)) = (i / 2 : Nat) := by
    -- the address of the pair is not above that of the buddy
    have low : blockAt (k + 1) (i / 2) ≤ blockAt k (buddy i) := by
      rw [blockAt_succ]
      unfold blockAt
      have := BuddyTree.buddy_div i
      have := BLK_SIZE_pos k
      refine mul_le_mul_of_nonneg_right ?_ (by omega)
      exact_mod_cast (by omega : 2 * (i / 2) ≤ buddy i)
    rw [blockAt_eq] at low ⊢
    rw [blkIndex_eq _ (by omega), Nat.mul_div_cancel _ (by positivity)]
  obtain ⟨bits', stored, split⟩ := Bd.bitPut_split
    (s := { s with bits := bits, links := lstRemove s.links (blockAt k (buddy i)) })
    (Nat.succ_pos k) above parent false
  have merged : tree { s with bits := bits', links := lstRemove s.links (blockAt k (buddy i)) } =
      s.tree.merge k i := by
    have released : tree { s with bits := bits, links := lstRemove s.links (blockAt k (buddy i)) } =
      s.tree.release k i := trees
    rw [split, released]
    rfl
  constructor
  · rw [addr]
    exact toInt_eq (by unfold blockAt at managed; have := heap.bounds.heads; omega)
      (by unfold blockAt at managed; omega)
  refine ⟨{ s with bits := bits', links := lstRemove s.links (blockAt k (buddy i)) },
    Function.update lists k ((lists k).erase (blockAt k (buddy i))), ?_, rfl, merged,
    of_tree (t := s.tree.merge k i) merged heap.bounds (heap.valid.merge live free) ?_ ?_⟩
  · rw [index, stored]
  · simp only [lstRemove_eq]
    exact heap.rings.unlink below member
  · exact heap.without below fun j x => BuddyTree.free_merge live free

end Heap

end Buddy

end Riscv2os.Xv7
