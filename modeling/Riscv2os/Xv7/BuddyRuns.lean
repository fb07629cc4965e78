import Riscv2os.Std.TransitionSystem
import Riscv2os.Xv7.BuddyBoot

/-!
# Runs of the buddy allocator

The callers of `bd_malloc` and `bd_free` take turns, since both hold the lock. A caller frees
only what it was given, and stores only into the bytes it asked for. In every run the blocks
that are in use and those on the free lists make up the managed memory.
-/

namespace Riscv2os.Xv7

open Riscv2os.Std
open Buddy

/-- The allocator with the bounds of its memory, and the blocks in use with the number of
bytes that was asked for. -/
structure BdSys where
  bd : Bd
  left : Int
  right : Int
  live : List (Int × Nat)

inductive BdCall where
  | malloc (nbytes : Nat)
  | free (p : Int)
  | store

/-- What the callers do. -/
inductive BdStep (sys : BdSys) : BdCall → BdSys → Prop where
  | malloc {n : Nat} {p bd} (fits : n ≤ HEAP_SIZE sys.bd.nsizes) (ran : sys.bd.bdMalloc n = .ok (some p, bd)) :
      BdStep sys (.malloc n) { sys with bd := bd, live := (p, n) :: sys.live }
  | mallocNull {n : Nat} {bd} (fits : n ≤ HEAP_SIZE sys.bd.nsizes) (ran : sys.bd.bdMalloc n = .ok (none, bd)) :
      BdStep sys (.malloc n) { sys with bd := bd }
  | free {p n bd} (owned : (p, n) ∈ sys.live) (ran : sys.bd.bdFree p = .ok bd) :
      BdStep sys (.free p) { sys with bd := bd, live := sys.live.erase (p, n) }
  /-- A list node is changed only by a store into the block that it is in. -/
  | store {links : Links Int}
      (outside : ∀ x, (∀ p n, (p, n) ∈ sys.live → ¬ (p ≤ x ∧ x < p + n)) →
        links.next x = sys.bd.links.next x ∧ links.prev x = sys.bd.links.prev x) :
      BdStep sys .store { sys with bd := { sys.bd with links := links } }

/-- The runs after a `bd_init` that succeeds. -/
def bdSystem : TransitionSystem BdSys BdCall where
  Initial sys := ∃ mem base end_, bdInit mem base end_ = .ok (sys.bd, sys.left, sys.right) ∧ sys.live = []
  Step := BdStep

namespace BdSys

/-- A block that is in use, or on the free list of its size. -/
def Block (sys : BdSys) (lists : Nat → List Int) (p : Int) (k : Nat) : Prop :=
  (∃ n, (p, n) ∈ sys.live ∧ sys.bd.size p = .ok k) ∨ (k < sys.bd.nsizes ∧ p ∈ lists k)

/-- The state of the allocator between two calls, with the nodes of its free lists. -/
structure Sound (sys : BdSys) (lists : Nat → List Int) : Prop where
  /-- The links are those of the lists, and no node is on two of them. -/
  rings : sys.bd.links.Rings (fun k => k < sys.bd.nsizes) freeHead lists
  /-- A block in use is large enough, and aligned to its size. -/
  sized : ∀ p n, (p, n) ∈ sys.live →
    ∃ k, sys.bd.size p = .ok k ∧ n ≤ BLK_SIZE k ∧ BLK_SIZE k ∣ p
  disjoint : sys.live.Pairwise fun a b => ∀ j k, sys.bd.size a.1 = .ok j → sys.bd.size b.1 = .ok k →
    a.1 + BLK_SIZE j ≤ b.1 ∨ b.1 + BLK_SIZE k ≤ a.1
  inside : ∀ p k, sys.Block lists p k → sys.left ≤ p ∧ p + BLK_SIZE k ≤ sys.right
  tiles : ∀ x, sys.left ≤ x → x < sys.right →
    ∃! b : Int × Nat, sys.Block lists b.1 b.2 ∧ b.1 ≤ x ∧ x < b.1 + BLK_SIZE b.2
  /-- Two blocks that are the halves of one block are not both free. -/
  coalesced : ∀ k < sys.bd.nsizes, ∀ p ∈ lists k, ∀ q ∈ lists k,
    p / BLK_SIZE (k + 1) = q / BLK_SIZE (k + 1) → p = q
  mallocs : ∀ n : Nat, n ≤ HEAP_SIZE sys.bd.nsizes → ∃ result, sys.bd.bdMalloc n = .ok result
  frees : ∀ p n, (p, n) ∈ sys.live → ∃ bd, sys.bd.bdFree p = .ok bd

/-- The blocks in use are the live blocks of the heap. -/
structure Inv (sys : BdSys) (lists : Nat → List Int) : Prop where
  heap : Heap sys.bd sys.left sys.right lists
  nodup : (sys.live.map Prod.fst).Nodup
  owned : ∀ p n, (p, n) ∈ sys.live →
    ∃ k i, p = blockAt k i ∧ sys.bd.LiveBlock sys.left sys.right k i ∧ n ≤ BLK_SIZE k
  listed : ∀ k i, sys.bd.LiveBlock sys.left sys.right k i → ∃ n, (blockAt k i, n) ∈ sys.live

end BdSys

namespace Buddy

theorem blockAt_add (k i : Nat) : blockAt k i + BLK_SIZE k = blockAt k (i + 1) := by
  unfold blockAt
  push_cast
  ring

namespace Heap

variable {s : Bd} {left right : Int} {lists : Nat → List Int} {k i j x : Nat}

/-- A leaf of the division that is not reserved. -/
abbrev UsableLeaf (s : Bd) (left right : Int) (k i : Nat) : Prop :=
  s.tree.Free s.maxsize k i ∨ s.LiveBlock left right k i

theorem usable_leaf (heap : Heap s left right lists) (usable : UsableLeaf s left right k i) :
    s.tree.Leaf s.maxsize k i :=
  usable.elim (·.leaf heap.valid) (·.leaf heap.valid)

/-- Two blocks that have an address in common are the same. -/
theorem usable_unique (heap : Heap s left right lists) (one : UsableLeaf s left right k i)
    (two : UsableLeaf s left right j x) {u : Nat} (inside : u / 2 ^ k = i) (inside' : u / 2 ^ j = x) :
    k = j ∧ i = x := by
  have leaf := heap.usable_leaf one
  have leaf' := heap.usable_leaf two
  rw [← inside] at leaf
  rw [← inside'] at leaf'
  obtain rfl := heap.valid.leaf_unique leaf leaf'
  exact ⟨rfl, inside.symm.trans inside'⟩

/-- The unit of an address inside a block. -/
theorem unit_of_address {y : Int} (above : blockAt k i ≤ y) (below : y < blockAt k i + BLK_SIZE k) :
    y.toNat / 16 / 2 ^ k = i := by
  rw [blockAt_add, blockAt_eq] at below
  rw [blockAt_eq] at above
  refine Nat.div_eq_of_lt_le ?_ ?_ <;> omega

/-- Different blocks have no address in common. -/
theorem usable_apart (heap : Heap s left right lists) (one : UsableLeaf s left right k i)
    (two : UsableLeaf s left right j x) (differ : blockAt k i ≠ blockAt j x) :
    blockAt k i + BLK_SIZE k ≤ blockAt j x ∨ blockAt j x + BLK_SIZE j ≤ blockAt k i := by
  by_contra overlap
  rw [not_or, not_le, not_le] at overlap
  have positive := BLK_SIZE_pos k
  have positive' := BLK_SIZE_pos j
  obtain ⟨rfl, rfl⟩ := heap.usable_unique one two
    (unit_of_address (y := max (blockAt k i) (blockAt j x)) (le_max_left ..) (by omega))
    (unit_of_address (le_max_right ..) (by omega))
  exact differ rfl

/-- Blocks lie in the managed memory. -/
theorem usable_inside (heap : Heap s left right lists) (usable : UsableLeaf s left right k i) :
    left ≤ blockAt k i ∧ blockAt k i + BLK_SIZE k ≤ right := by
  have positive : 0 < 2 ^ k := by positivity
  have first := heap.leaf_managed usable (u := i * 2 ^ k) (Nat.mul_div_cancel _ positive)
  have last := heap.leaf_managed usable (u := i * 2 ^ k + (2 ^ k - 1)) (by
    rw [mul_comm, Nat.mul_add_div positive, Nat.div_eq_of_lt (by omega), add_zero])
  rw [blockAt_add, blockAt_eq, blockAt_eq, Nat.add_mul]
  have := heap.bounds.right_dvd
  omega

/-- Every address of the managed memory lies in a block. -/
theorem exists_usable (heap : Heap s left right lists) {y : Int} (low : left ≤ y) (high : y < right) :
    ∃ k i, UsableLeaf s left right k i ∧ blockAt k i ≤ y ∧ y < blockAt k i + BLK_SIZE k := by
  have heads := heap.bounds.heads
  have inside := heap.bounds.inside
  rw [HEAP_SIZE_eq, ← Bd.maxsize] at inside
  obtain ⟨k, leaf⟩ := heap.valid.exists_leaf (u := y.toNat / 16) (by omega)
  have positive : 0 < 2 ^ k := by positivity
  have bounds : blockAt k (y.toNat / 16 / 2 ^ k) ≤ y ∧
      y < blockAt k (y.toNat / 16 / 2 ^ k) + BLK_SIZE k := by
    have below := Nat.div_mul_le_self (y.toNat / 16) (2 ^ k)
    have above := Nat.lt_div_mul_add (a := y.toNat / 16) positive
    rw [blockAt_add, blockAt_eq, blockAt_eq, Nat.add_mul, Nat.one_mul]
    omega
  refine ⟨k, y.toNat / 16 / 2 ^ k, ?_, bounds⟩
  obtain free | live | ⟨rfl, held⟩ := @BuddyTree.Leaf.cases _ _ _ _ (Reserved s.maxsize left right) leaf
  · exact .inl free
  · exact .inr live
  · have := heap.bounds.left_dvd
    have := heap.bounds.right_dvd
    have := held.2
    rw [pow_zero, Nat.div_one] at this
    omega

end Heap

end Buddy

namespace BdSys.Inv

variable {sys : BdSys} {lists : Nat → List Int}

/-- A block in the sense of the runs is a leaf that is not reserved. -/
theorem block_iff (inv : sys.Inv lists) {p : Int} {k : Nat} :
    sys.Block lists p k ↔ ∃ i, p = blockAt k i ∧ Heap.UsableLeaf sys.bd sys.left sys.right k i := by
  constructor
  · rintro (⟨n, member, size⟩ | ⟨below, member⟩)
    · obtain ⟨j, i, rfl, live, _⟩ := inv.owned p n member
      rw [inv.heap.size_live live] at size
      cases size
      exact ⟨i, rfl, .inr live⟩
    · obtain ⟨i, same, free⟩ := (inv.heap.free k below p).mp member
      exact ⟨i, same, .inl free⟩
  · rintro ⟨i, rfl, free | live⟩
    · have below : k < sys.bd.nsizes := by
        have := free.1
        unfold Bd.maxsize at this
        omega
      exact .inr ⟨below, (inv.heap.free k below _).mpr ⟨i, rfl, free⟩⟩
    · obtain ⟨n, member⟩ := inv.listed k i live
      exact .inl ⟨n, member, inv.heap.size_live live⟩

theorem sound (inv : sys.Inv lists) : sys.Sound lists where
  rings := inv.heap.rings
  sized p n member := by
    obtain ⟨k, i, rfl, live, fits⟩ := inv.owned p n member
    exact ⟨k, inv.heap.size_live live, fits, ⟨i, mul_comm _ _⟩⟩
  disjoint := by
    have pairs : sys.live.Pairwise fun a b => a.1 ≠ b.1 := List.pairwise_map.mp inv.nodup
    refine pairs.imp_of_mem fun {a b} member member' differ j k size size' => ?_
    obtain ⟨_, i, same, live, _⟩ := inv.owned a.1 a.2 member
    obtain ⟨_, x, same', live', _⟩ := inv.owned b.1 b.2 member'
    rw [same, inv.heap.size_live live] at size
    rw [same', inv.heap.size_live live'] at size'
    cases size
    cases size'
    rw [same, same'] at differ ⊢
    exact inv.heap.usable_apart (.inr live) (.inr live') differ
  inside p k block := by
    obtain ⟨i, rfl, usable⟩ := inv.block_iff.mp block
    exact inv.heap.usable_inside usable
  tiles x low high := by
    obtain ⟨k, i, usable, above, below⟩ := inv.heap.exists_usable low high
    refine ⟨(blockAt k i, k), ⟨inv.block_iff.mpr ⟨i, rfl, usable⟩, above, below⟩, ?_⟩
    rintro ⟨p, j⟩ ⟨block, above', below'⟩
    obtain ⟨y, same, usable'⟩ := inv.block_iff.mp block
    dsimp only at same above' below'
    subst same
    obtain ⟨rfl, rfl⟩ := inv.heap.usable_unique usable usable' (Heap.unit_of_address above below)
      (Heap.unit_of_address above' below')
    rfl
  coalesced k inRange p member q member' pair := by
    obtain ⟨i, rfl, free⟩ := (inv.heap.free k inRange p).mp member
    obtain ⟨x, rfl, free'⟩ := (inv.heap.free k inRange q).mp member'
    have half : ∀ y, blockAt k y / BLK_SIZE (k + 1) = (y / 2 : Nat) := by
      intro y
      rw [BLK_SIZE_succ, blockAt, Int.mul_ediv_mul_of_pos_left _ _ (BLK_SIZE_pos k)]
      rfl
    rw [half, half] at pair
    obtain rfl | rfl := BuddyTree.half_cases (i := i) (j := x) (by omega)
    · rfl
    · have used := inv.heap.valid.coalesced free.1 free.2.1
      rw [free.2.2, free'.2.2] at used
      simp at used
  mallocs n fits := by
    obtain ran | ⟨_, _, _, _, ran, _⟩ := inv.heap.bdMalloc_returns fits
    · exact ⟨_, ran⟩
    · exact ⟨_, ran⟩
  frees p n member := by
    obtain ⟨k, i, rfl, live, _⟩ := inv.owned p n member
    obtain ⟨bd, _, ran, _⟩ := inv.heap.bdFree_returns live
    exact ⟨bd, ran⟩

theorem initial (start : bdSystem.Initial sys) : ∃ lists, sys.Inv lists := by
  obtain ⟨mem, base, end_, ran, none_⟩ := start
  obtain ⟨⟨lists, heap⟩, low, high, left, right, trees⟩ := bdInit_heap ran
  refine ⟨lists, heap, ?_, ?_, fun k i live => ?_⟩
  · rw [none_]
    exact List.nodup_nil
  · rw [none_]
    exact fun p n member => absurd member List.not_mem_nil
  · rw [left, right] at live
    exact absurd live (not_live_ofRange trees)

theorem malloc (inv : sys.Inv lists) {n : Nat} {p : Int} {bd : Bd} (fits : n ≤ HEAP_SIZE sys.bd.nsizes)
    (ran : sys.bd.bdMalloc n = .ok (some p, bd)) :
    ∃ lists', Inv { sys with bd := bd, live := (p, n) :: sys.live } lists' := by
  obtain ran' | ⟨s', k, i, lists', ran', _, heap, enough, fresh, lives⟩ := inv.heap.bdMalloc_returns fits
  · rw [ran] at ran'
    cases ran'
  rw [ran] at ran'
  obtain ⟨rfl, rfl⟩ : p = blockAt k i ∧ bd = s' := by simpa using ran'
  refine ⟨lists', heap, ?_, ?_, ?_⟩
  · rw [List.map_cons, List.nodup_cons]
    refine ⟨fun member => ?_, inv.nodup⟩
    obtain ⟨⟨q, m⟩, member, same⟩ := List.mem_map.mp member
    obtain ⟨j, x, rfl, live, _⟩ := inv.owned q m member
    -- the block is in use before, and shares its first address with the new one
    have positive := BLK_SIZE_pos k
    have positive' := BLK_SIZE_pos j
    dsimp only at same
    obtain ⟨rfl, rfl⟩ := heap.usable_unique (.inr ((lives k i).mpr (.inr ⟨rfl, rfl⟩)))
      (.inr ((lives j x).mpr (.inl live))) (Heap.unit_of_address (y := blockAt k i) le_rfl (by omega))
      (Heap.unit_of_address (by omega) (by omega))
    exact fresh live
  · intro q m member
    obtain same | member := List.mem_cons.mp member
    · cases same
      exact ⟨k, i, rfl, (lives k i).mpr (.inr ⟨rfl, rfl⟩), enough⟩
    · obtain ⟨j, x, same, live, fits⟩ := inv.owned q m member
      exact ⟨j, x, same, (lives j x).mpr (.inl live), fits⟩
  · intro j x live
    obtain was | ⟨rfl, rfl⟩ := (lives j x).mp live
    · obtain ⟨m, member⟩ := inv.listed j x was
      exact ⟨m, List.mem_cons_of_mem _ member⟩
    · exact ⟨n, List.mem_cons_self ..⟩

theorem free (inv : sys.Inv lists) {n : Nat} {p : Int} {bd : Bd} (owned : (p, n) ∈ sys.live)
    (ran : sys.bd.bdFree p = .ok bd) :
    ∃ lists', Inv { sys with bd := bd, live := sys.live.erase (p, n) } lists' := by
  obtain ⟨k, i, rfl, live, _⟩ := inv.owned p n owned
  obtain ⟨s', lists', ran', _, heap, lives⟩ := inv.heap.bdFree_returns live
  obtain rfl : s' = bd := Except.ok.inj (ran'.symm.trans ran)
  have nodup : sys.live.Nodup := inv.nodup.of_map
  refine ⟨lists', heap, ?_, ?_, ?_⟩
  · exact inv.nodup.sublist (List.erase_sublist.map _)
  · intro q m member
    obtain ⟨differ, was⟩ := nodup.mem_erase_iff.mp member
    obtain ⟨j, x, rfl, live', fits⟩ := inv.owned q m was
    refine ⟨j, x, rfl, (lives j x).mpr ⟨live', ?_⟩, fits⟩
    rintro ⟨rfl, rfl⟩
    exact differ (List.inj_on_of_nodup_map inv.nodup was owned rfl)
  · intro j x live'
    obtain ⟨was, apart⟩ := (lives j x).mp live'
    obtain ⟨m, member⟩ := inv.listed j x was
    refine ⟨m, (List.mem_erase_of_ne fun same => apart ?_).mpr member⟩
    have start : blockAt j x = blockAt k i := congrArg Prod.fst same
    have positive := BLK_SIZE_pos j
    have positive' := BLK_SIZE_pos k
    exact inv.heap.usable_unique (.inr was) (.inr live)
      (Heap.unit_of_address (y := blockAt j x) le_rfl (by omega)) (Heap.unit_of_address (by omega) (by omega))

theorem store (inv : sys.Inv lists) {links : Links Int}
    (outside : ∀ x, (∀ p n, (p, n) ∈ sys.live → ¬ (p ≤ x ∧ x < p + n)) →
      links.next x = sys.bd.links.next x ∧ links.prev x = sys.bd.links.prev x) :
    Inv { sys with bd := { sys.bd with links := links } } lists := by
  refine ⟨⟨inv.heap.bounds, inv.heap.valid, ?_, inv.heap.free⟩, inv.nodup, inv.owned, inv.listed⟩
  refine inv.heap.rings.congr fun k below x node => outside x fun p n member within => ?_
  obtain ⟨j, i, rfl, live, fits⟩ := inv.owned p n member
  obtain rfl | listed := List.mem_cons.mp node
  · -- the heads are in front of the managed memory
    have := (inv.heap.usable_inside (.inr live)).1
    have := inv.heap.bounds.heads
    unfold freeHead SZ_INFO at within
    omega
  · obtain ⟨y, rfl, free⟩ := (inv.heap.free k below x).mp listed
    have positive := BLK_SIZE_pos k
    obtain ⟨rfl, rfl⟩ := inv.heap.usable_unique (.inr live) (.inl free)
      (Heap.unit_of_address within.1 (by omega)) (Heap.unit_of_address le_rfl (by omega))
    have alloc := live.1
    rw [free.2.2] at alloc
    cases alloc

end BdSys.Inv

theorem bdSystem_inductive : bdSystem.Inductive (fun _ _ => True) fun sys => ∃ lists, sys.Inv lists where
  initial := BdSys.Inv.initial
  preserved := by
    rintro sys call next ⟨lists, inv⟩ - step
    cases step with
    | malloc fits ran => exact inv.malloc fits ran
    | mallocNull fits ran =>
        obtain ran' | ⟨_, _, _, _, ran', _⟩ := inv.heap.bdMalloc_returns fits
        · rw [ran] at ran'
          obtain rfl : _ = sys.bd := by simpa using ran'
          exact ⟨lists, inv⟩
        · rw [ran] at ran'
          cases ran'
    | free owned ran => exact inv.free owned ran
    | store outside => exact ⟨lists, inv.store outside⟩

/-- In every run the blocks in use and the free blocks make up the managed memory. -/
theorem buddy_sound {sys : BdSys} (run : bdSystem.Reachable sys) : ∃ lists, sys.Sound lists := by
  obtain ⟨lists, inv⟩ := run.invariant bdSystem_inductive
  exact ⟨lists, inv.sound⟩

/-- `bd_init` of 528 bytes. -/
@[irreducible] def smallBoot : Bd × Int × Int :=
  (bdInit ⟨fun _ => 0, fun _ => 0⟩ 0 528).toOption.getD (⟨0, fun _ => false, ⟨fun _ => 0, fun _ => 0⟩⟩, 0, 0)

/-- The allocator after a call of `bd_malloc`. -/
def afterMalloc (s : Bd) (n : Nat) : Bd := ((s.bdMalloc n).toOption.map Prod.snd).getD s

/-- The allocator after a call of `bd_free`. -/
def afterFree (s : Bd) (p : Int) : Bd := (s.bdFree p).toOption.getD s

theorem smallBoot_returns : bdInit ⟨fun _ => 0, fun _ => 0⟩ 0 528 =
    .ok (smallBoot.1, smallBoot.2.1, smallBoot.2.2) := by
  have returned : bdInit ⟨fun _ => 0, fun _ => 0⟩ 0 528 = .ok smallBoot := by
    unfold smallBoot
    exact ok_getD (by decide +kernel) _
  generalize smallBoot = boot at returned ⊢
  exact returned

theorem afterMalloc_returns {s : Bd} {n : Nat} {p : Int}
    (returned : (s.bdMalloc n).toOption.map Prod.fst = some (some p)) :
    s.bdMalloc n = .ok (some p, afterMalloc s n) := ok_mk_getD returned s

theorem afterFree_returns {s : Bd} {p : Int} (returned : (s.bdFree p).toOption.isSome = true) :
    s.bdFree p = .ok (afterFree s p) := ok_getD returned s

theorem buddy_sound_small : ∃ sys lists, bdSystem.Reachable sys ∧
    sys.live = [((256 : Int), 60), (512, 7)] ∧ sys.Sound lists := by
  let first := afterMalloc smallBoot.1 20
  let second := afterMalloc first 7
  let freed := afterFree second 256
  have start : bdSystem.Reachable ⟨smallBoot.1, smallBoot.2.1, smallBoot.2.2, []⟩ :=
    .initial ⟨⟨fun _ => 0, fun _ => 0⟩, 0, 528, smallBoot_returns, rfl⟩
  have run₁ : bdSystem.Reachable ⟨first, smallBoot.2.1, smallBoot.2.2, [(256, 20)]⟩ :=
    .step start trivial (.malloc (by decide +kernel) (afterMalloc_returns (by decide +kernel)))
  have run₂ : bdSystem.Reachable ⟨second, smallBoot.2.1, smallBoot.2.2, [(512, 7), (256, 20)]⟩ :=
    .step run₁ trivial (.malloc (by decide +kernel) (afterMalloc_returns (by decide +kernel)))
  have run₃ : bdSystem.Reachable ⟨freed, smallBoot.2.1, smallBoot.2.2, [(512, 7)]⟩ :=
    .step run₂ trivial (.free (n := 20) (by simp) (afterFree_returns (by decide +kernel)))
  have run₄ : bdSystem.Reachable ⟨afterMalloc freed 60, smallBoot.2.1, smallBoot.2.2, [(256, 60), (512, 7)]⟩ :=
    .step run₃ trivial (.malloc (by decide +kernel) (afterMalloc_returns (by decide +kernel)))
  obtain ⟨lists, sound⟩ := buddy_sound run₄
  exact ⟨_, lists, run₄, rfl, sound⟩

namespace BdSys

/-- What `bd_malloc` owes a caller that asks for `n` bytes: it returns, `firstk` finds the first size that is
large enough, and there is no block if the allocator does not have this size. -/
structure Answers (sys : BdSys) (n : Nat) : Prop where
  returns : ∃ result, sys.bd.bdMalloc n = .ok result
  first : ∃ rounds k, firstkLoop rounds 0 LEAF_SIZE.toNat n = .ok k ∧ IsLeast {j | n ≤ BLK_SIZE j} k ∧
    (sys.bd.nsizes ≤ k → sys.bd.bdMalloc n = .ok (none, sys.bd))

variable {sys : BdSys} {lists : Nat → List Int}

theorem Inv.answers (inv : sys.Inv lists) {n : Nat} (small : n ≤ 2 ^ 63) : sys.Answers n := by
  obtain ⟨k, found, large, least⟩ := firstk_returns (n := n) (m := 59) (by norm_num) (by omega)
  have size : ∀ j, (n : Int) ≤ BLK_SIZE j ↔ n ≤ 16 * 2 ^ j := by
    intro j
    unfold BLK_SIZE LEAF_SIZE
    rw [mul_comm]
    exact_mod_cast Iff.rfl
  have none : sys.bd.nsizes ≤ k → sys.bd.bdMalloc n = .ok (none, sys.bd) := by
    intro above
    rw [Bd.bdMalloc, found, ok_bind, Nat.sub_eq_zero_of_le above]
    rfl
  refine ⟨?_, 64, k, found, ⟨(size k).mpr large, fun j enough => ?_⟩, none⟩
  · by_cases fits : (n : Int) ≤ HEAP_SIZE sys.bd.nsizes
    · rcases inv.heap.bdMalloc_returns fits with ran | ⟨s', j, i, lists', ran, -⟩
      · exact ⟨_, ran⟩
      · exact ⟨_, ran⟩
    · -- no size of the allocator is large enough
      refine ⟨_, none ?_⟩
      by_contra below
      have order : (2 : Nat) ^ k ≤ 2 ^ (sys.bd.nsizes - 1) := Nat.pow_le_pow_right (by norm_num) (by omega)
      rw [HEAP_SIZE_eq] at fits
      omega
  · by_contra less
    have smaller := least j (Nat.lt_of_not_le less)
    have enough' := (size j).mp enough
    omega

/-- A size of more than half of the numbers of 64 bits is never found. -/
theorem Answers.small {n : Nat} (answers : sys.Answers n) : n ≤ 2 ^ 63 := by
  by_contra large
  obtain ⟨rounds, k, found, -⟩ := answers.first
  have start : LEAF_SIZE.toNat = 16 * 2 ^ 0 := rfl
  rw [start, firstkLoop_endless (Nat.lt_of_not_le large) 0 _ (.inr ⟨0, by norm_num, rfl⟩)] at found
  cases found

/-- `bd_malloc` answers every size up to half of the numbers of 64 bits, and for every other size its search for
the first size does not end. -/
theorem answers_iff (run : bdSystem.Reachable sys) (n : Nat) : sys.Answers n ↔ n ≤ 2 ^ 63 := by
  obtain ⟨lists, inv⟩ := run.invariant bdSystem_inductive
  exact ⟨Answers.small, inv.answers⟩

/-- The allocator that `bd_init` makes of 528 bytes answers a size of a gigabyte. -/
theorem answers_gigabyte : ∃ sys, bdSystem.Reachable sys ∧ sys.Answers (2 ^ 30) := by
  have start : bdSystem.Reachable ⟨smallBoot.1, smallBoot.2.1, smallBoot.2.2, []⟩ :=
    .initial ⟨⟨fun _ => 0, fun _ => 0⟩, 0, 528, smallBoot_returns, rfl⟩
  exact ⟨_, start, (answers_iff start _).mpr (by norm_num)⟩

/-- A size of all ones is not answered. -/
theorem answers_never : ∃ sys, bdSystem.Reachable sys ∧ ¬ sys.Answers (2 ^ 64 - 1) := by
  have start : bdSystem.Reachable ⟨smallBoot.1, smallBoot.2.1, smallBoot.2.2, []⟩ :=
    .initial ⟨⟨fun _ => 0, fun _ => 0⟩, 0, 528, smallBoot_returns, rfl⟩
  exact ⟨_, start, fun answers => absurd answers.small (by norm_num)⟩

end BdSys

end Riscv2os.Xv7
