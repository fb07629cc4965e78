import Mathlib.Tactic

/-!
# Binary division of a range into blocks

A range of `2 ^ top` units is divided into blocks: block `i` of level `k` holds the `2 ^ k`
units whose number divided by `2 ^ k` is `i`, and its halves are the blocks `2 * i` and
`2 * i + 1` of the level below. Two bits for each block describe the division. A block that is
split is divided further; a block that is not, below a block that is, is a leaf. A leaf is free
or allocated. Some units are reserved for ever and are leaves of their own.

The four operations are those of a buddy allocator: take a free leaf, halve an allocated one,
merge an allocated leaf with its free buddy, and give an allocated leaf back.
-/

namespace Riscv2os.Std

/-- The bits of a division. -/
structure BuddyTree where
  alloc : Nat → Nat → Bool
  split : Nat → Nat → Bool

namespace BuddyTree

/-- Change the bit of one block. -/
def setBit (bits : Nat → Nat → Bool) (k i : Nat) (value : Bool) : Nat → Nat → Bool :=
  fun k' i' => if k' = k ∧ i' = i then value else bits k' i'

/-- The other half of the block that a block is a half of. -/
def buddy (i : Nat) : Nat := if i % 2 = 0 then i + 1 else i - 1

@[simp] theorem buddy_div (i : Nat) : buddy i / 2 = i / 2 := by
  unfold buddy
  split <;> omega

@[simp] theorem buddy_buddy (i : Nat) : buddy (buddy i) = i := by
  unfold buddy
  split <;> split <;> omega

theorem buddy_even {i : Nat} (even : i % 2 = 0) : buddy i = i + 1 := if_pos even

theorem buddy_odd {i : Nat} (odd : i % 2 = 1) : buddy i = i - 1 := if_neg (by omega)

theorem buddy_ne (i : Nat) : buddy i ≠ i := by
  unfold buddy
  split <;> omega

/-- The halves of a block. -/
theorem half_cases {i j : Nat} (half : j / 2 = i / 2) : j = i ∨ j = buddy i := by
  unfold buddy
  split <;> omega

@[simp] theorem setBit_self (bits : Nat → Nat → Bool) (k i : Nat) (value : Bool) :
    setBit bits k i value k i = value := by simp [setBit]

theorem setBit_ne (bits : Nat → Nat → Bool) {k i k' i' : Nat} (value : Bool)
    (apart : ¬ (k' = k ∧ i' = i)) : setBit bits k i value k' i' = bits k' i' := by
  simp [setBit, apart]

/-- What makes the bits a division. -/
structure Valid (t : BuddyTree) (top : Nat) (reserved : Nat → Prop) : Prop where
  bounded : ∀ {k i}, t.alloc k i = true → k ≤ top ∧ i < 2 ^ (top - k)
  alloc_of_split : ∀ {k i}, t.split k i = true → t.alloc k i = true
  parent : ∀ {k i}, k < top → t.alloc k i = true → t.split (k + 1) (i / 2) = true
  root : t.split top 0 = true
  unit : ∀ i, t.split 0 i = false
  coalesced : ∀ {k i}, k < top → t.split (k + 1) (i / 2) = true →
    t.alloc k i = true ∨ t.alloc k (buddy i) = true
  reserved_alloc : ∀ {i}, reserved i → t.alloc 0 i = true
  reserved_some : ∃ i, reserved i

/-- A block that the division stops at. -/
def Leaf (t : BuddyTree) (top k i : Nat) : Prop :=
  k < top ∧ t.split (k + 1) (i / 2) = true ∧ t.split k i = false

/-- A leaf that can be allocated. -/
def Free (t : BuddyTree) (top k i : Nat) : Prop :=
  k < top ∧ t.split (k + 1) (i / 2) = true ∧ t.alloc k i = false

/-- A leaf that is allocated, and not reserved. -/
def Live (t : BuddyTree) (reserved : Nat → Prop) (k i : Nat) : Prop :=
  t.alloc k i = true ∧ t.split k i = false ∧ ¬ (k = 0 ∧ reserved i)

section Facts

variable {t : BuddyTree} {top k i j u : Nat} {reserved : Nat → Prop}

theorem Valid.split_false (valid : t.Valid top reserved) (free : t.alloc k i = false) :
    t.split k i = false := by
  cases isSplit : t.split k i with
  | false => rfl
  | true =>
      rw [valid.alloc_of_split isSplit] at free
      cases free

theorem Free.leaf (valid : t.Valid top reserved) (free : t.Free top k i) : t.Leaf top k i :=
  ⟨free.1, free.2.1, valid.split_false free.2.2⟩

theorem Valid.alloc_lt (valid : t.Valid top reserved) (alloc : t.alloc k i = true)
    (whole : t.split k i = false) : k < top := by
  obtain ⟨low, inside⟩ := valid.bounded alloc
  obtain rfl | below := Nat.eq_or_lt_of_le low
  · have only : i = 0 := by simpa using inside
    rw [only, valid.root] at whole
    cases whole
  · exact below

theorem Live.leaf (valid : t.Valid top reserved) (live : t.Live reserved k i) : t.Leaf top k i := by
  have below := valid.alloc_lt live.1 live.2.1
  exact ⟨below, valid.parent below live.1, live.2.1⟩

theorem Valid.reserved_leaf (valid : t.Valid top reserved) (held : reserved u) : t.Leaf top 0 u := by
  have below := valid.alloc_lt (valid.reserved_alloc held) (valid.unit u)
  exact ⟨below, valid.parent below (valid.reserved_alloc held), valid.unit u⟩

/-- A leaf is free, live or a reserved unit. -/
theorem Leaf.cases (leaf : t.Leaf top k i) :
    t.Free top k i ∨ t.Live reserved k i ∨ (k = 0 ∧ reserved i) := by
  obtain ⟨below, parent, whole⟩ := leaf
  cases alloc : t.alloc k i with
  | false => exact .inl ⟨below, parent, alloc⟩
  | true =>
      by_cases held : k = 0 ∧ reserved i
      · exact .inr (.inr held)
      · exact .inr (.inl ⟨alloc, whole, held⟩)

/-- All blocks around a split block are split. -/
theorem Valid.split_up (valid : t.Valid top reserved) (isSplit : t.split k (u / 2 ^ k) = true)
    (n : Nat) (inside : k + n ≤ top) : t.split (k + n) (u / 2 ^ (k + n)) = true := by
  induction n with
  | zero => exact isSplit
  | succ n ih =>
      have parent := valid.parent (by omega) (valid.alloc_of_split (ih (by omega)))
      rwa [Nat.div_div_eq_div_mul, ← pow_succ] at parent

/-- Two leaves with a common unit are the same block. -/
theorem Valid.leaf_unique (valid : t.Valid top reserved) (leaf : t.Leaf top k (u / 2 ^ k))
    (leaf' : t.Leaf top j (u / 2 ^ j)) : k = j := by
  have order : ∀ {a b}, t.Leaf top a (u / 2 ^ a) → t.Leaf top b (u / 2 ^ b) → ¬ a < b := by
    intro a b leaf leaf' less
    have parent : t.split (a + 1) (u / 2 ^ (a + 1)) = true := by
      have := leaf.2.1
      rwa [Nat.div_div_eq_div_mul, ← pow_succ] at this
    have upTo := valid.split_up parent (b - (a + 1)) (by have := leaf'.1; omega)
    rw [show a + 1 + (b - (a + 1)) = b by omega, leaf'.2.2] at upTo
    cases upTo
  have := order leaf leaf'
  have := order leaf' leaf
  omega

/-- Every unit lies in a leaf. -/
theorem Valid.exists_leaf (valid : t.Valid top reserved) (inside : u < 2 ^ top) :
    ∃ k, t.Leaf top k (u / 2 ^ k) := by
  have rootSplit : t.split top (u / 2 ^ top) = true := by
    rw [Nat.div_eq_of_lt inside]
    exact valid.root
  -- the lowest block around the unit that is split
  have some_ : ∃ k, t.split k (u / 2 ^ k) = true := ⟨top, rootSplit⟩
  classical
  have lowest := Nat.find_spec some_
  have least : ∀ k, k < Nat.find some_ → ¬ t.split k (u / 2 ^ k) = true :=
    fun k less => Nat.find_min some_ less
  have bound : Nat.find some_ ≤ top := Nat.find_min' some_ rootSplit
  obtain ⟨k, above⟩ : ∃ k, Nat.find some_ = k + 1 := by
    refine Nat.exists_eq_succ_of_ne_zero fun zero => ?_
    rw [zero, valid.unit] at lowest
    cases lowest
  rw [above] at lowest bound
  refine ⟨k, by omega, ?_, Bool.eq_false_iff.mpr (least k (by omega))⟩
  rwa [Nat.div_div_eq_div_mul, ← pow_succ]

/-- A leaf that holds a reserved unit is that unit. -/
theorem Valid.reserved_unique (valid : t.Valid top reserved) (held : reserved u)
    (leaf : t.Leaf top k (u / 2 ^ k)) : k = 0 := by
  have unit := valid.reserved_leaf held
  refine valid.leaf_unique leaf (j := 0) ?_
  rwa [pow_zero, Nat.div_one]

/-- Two live or free leaves that are the halves of one block leave that block below the top. -/
theorem Valid.below_top (valid : t.Valid top reserved) (live : t.Live reserved k i)
    (free : t.Free top k (buddy i)) : k + 1 < top := by
  have below := (live.leaf valid).1
  by_contra notBelow
  obtain rfl : top = k + 1 := by omega
  obtain ⟨u, held⟩ := valid.reserved_some
  obtain ⟨_, inside⟩ := valid.bounded (valid.reserved_alloc held)
  have small : u / 2 ^ k < 2 := by
    rw [Nat.sub_zero, pow_succ] at inside
    exact Nat.div_lt_of_lt_mul (by linarith)
  obtain ⟨_, bound⟩ := valid.bounded live.1
  rw [Nat.add_sub_cancel_left, pow_one] at bound
  have half : (u / 2 ^ k) / 2 = i / 2 := by
    rw [Nat.div_eq_of_lt small, Nat.div_eq_of_lt bound]
  obtain same | same := half_cases half
  · have zero := valid.reserved_unique held (k := k) (by rw [same]; exact live.leaf valid)
    subst zero
    rw [pow_zero, Nat.div_one] at same
    exact live.2.2 ⟨rfl, same ▸ held⟩
  · have zero := valid.reserved_unique held (k := k) (by rw [same]; exact free.leaf valid)
    subst zero
    rw [pow_zero, Nat.div_one] at same
    have alloc := valid.reserved_alloc held
    rw [same, free.2.2] at alloc
    cases alloc

end Facts

section Operations

/-- Allocate a free leaf. -/
def take (t : BuddyTree) (k i : Nat) : BuddyTree := { t with alloc := setBit t.alloc k i true }

/-- Split an allocated leaf of the level `k + 1`, and allocate its first half. -/
def halve (t : BuddyTree) (k i : Nat) : BuddyTree where
  alloc := setBit t.alloc k (2 * i) true
  split := setBit t.split (k + 1) i true

/-- Join an allocated leaf with its free buddy. -/
def merge (t : BuddyTree) (k i : Nat) : BuddyTree where
  alloc := setBit t.alloc k i false
  split := setBit t.split (k + 1) (i / 2) false

/-- Give an allocated leaf back. -/
def release (t : BuddyTree) (k i : Nat) : BuddyTree := { t with alloc := setBit t.alloc k i false }

variable {t : BuddyTree} {top k i k' i' : Nat} {reserved : Nat → Prop}

theorem Valid.take (valid : t.Valid top reserved) (free : t.Free top k i) :
    (t.take k i).Valid top reserved where
  bounded {k' i'} alloc := by
    by_cases here : k' = k ∧ i' = i
    · obtain ⟨rfl, rfl⟩ := here
      obtain ⟨_, inside⟩ := valid.bounded (valid.alloc_of_split free.2.1)
      have below := free.1
      refine ⟨below.le, ?_⟩
      rw [show top - k' = top - (k' + 1) + 1 by omega, pow_succ]
      omega
    · exact valid.bounded ((setBit_ne t.alloc true here).symm.trans alloc)
  alloc_of_split {k' i'} isSplit := by
    by_cases here : k' = k ∧ i' = i
    · obtain ⟨rfl, rfl⟩ := here
      exact setBit_self ..
    · exact (setBit_ne t.alloc true here).trans (valid.alloc_of_split isSplit)
  parent {k' i'} below alloc := by
    by_cases here : k' = k ∧ i' = i
    · obtain ⟨rfl, rfl⟩ := here
      exact free.2.1
    · exact valid.parent below ((setBit_ne t.alloc true here).symm.trans alloc)
  root := valid.root
  unit := valid.unit
  coalesced {k' i'} below parent := by
    have grows : ∀ {j}, t.alloc k' j = true → setBit t.alloc k i true k' j = true := by
      intro j alloc
      simp [setBit, alloc]
    exact (valid.coalesced below parent).imp grows grows
  reserved_alloc held := by
    have alloc := valid.reserved_alloc held
    simp [BuddyTree.take, setBit, alloc]
  reserved_some := valid.reserved_some

theorem free_take : (t.take k i).Free top k' i' ↔ t.Free top k' i' ∧ ¬ (k' = k ∧ i' = i) := by
  by_cases here : k' = k ∧ i' = i
  · obtain ⟨rfl, rfl⟩ := here
    simp [Free, BuddyTree.take]
  · simp [Free, BuddyTree.take, setBit_ne t.alloc true here, here]

theorem live_take (valid : t.Valid top reserved) (free : t.Free top k i) :
    (t.take k i).Live reserved k' i' ↔ t.Live reserved k' i' ∨ (k' = k ∧ i' = i) := by
  by_cases here : k' = k ∧ i' = i
  · obtain ⟨rfl, rfl⟩ := here
    have notHeld : ¬ (k' = 0 ∧ reserved i') := by
      rintro ⟨rfl, held⟩
      have alloc := valid.reserved_alloc held
      rw [free.2.2] at alloc
      cases alloc
    simp [Live, BuddyTree.take, valid.split_false free.2.2, notHeld]
  · simp [Live, BuddyTree.take, setBit_ne t.alloc true here, here]

/-- The halves of a live leaf have no bits set. -/
theorem Valid.halves (valid : t.Valid top reserved) (live : t.Live reserved (k + 1) i) {j : Nat}
    (half : j / 2 = i) : t.alloc k j = false := by
  have below := (live.leaf valid).1
  cases alloc : t.alloc k j with
  | false => rfl
  | true =>
      have parent := valid.parent (Nat.lt_of_succ_lt below) alloc
      rw [half, live.2.1] at parent
      cases parent

theorem Valid.halve (valid : t.Valid top reserved) (live : t.Live reserved (k + 1) i) :
    (t.halve k i).Valid top reserved where
  bounded {k' i'} alloc := by
    by_cases here : k' = k ∧ i' = 2 * i
    · obtain ⟨rfl, rfl⟩ := here
      obtain ⟨low, inside⟩ := valid.bounded live.1
      refine ⟨by omega, ?_⟩
      rw [show top - k' = top - (k' + 1) + 1 by omega, pow_succ]
      omega
    · exact valid.bounded ((setBit_ne t.alloc true here).symm.trans alloc)
  alloc_of_split {k' i'} isSplit := by
    have alloc : t.alloc k' i' = true := by
      by_cases here : k' = k + 1 ∧ i' = i
      · rw [here.1, here.2]
        exact live.1
      · exact valid.alloc_of_split ((setBit_ne t.split true here).symm.trans isSplit)
    simp [BuddyTree.halve, setBit, alloc]
  parent {k' i'} below alloc := by
    by_cases here : k' = k ∧ i' = 2 * i
    · obtain ⟨rfl, rfl⟩ := here
      simp [BuddyTree.halve, setBit]
    · have parent := valid.parent below ((setBit_ne t.alloc true here).symm.trans alloc)
      simp [BuddyTree.halve, setBit, parent]
  root := by
    have root := valid.root
    simp [BuddyTree.halve, setBit, root]
  unit j := by
    have apart : ¬ (0 = k + 1 ∧ j = i) := by omega
    exact (setBit_ne t.split true apart).trans (valid.unit j)
  coalesced {k' i'} below parent := by
    by_cases here : k' + 1 = k + 1 ∧ i' / 2 = i
    · obtain ⟨same, half⟩ := here
      obtain rfl : k' = k := by omega
      obtain rfl | rfl := half_cases (i := 2 * i) (j := i') (by omega)
      · exact .inl (setBit_self ..)
      · exact .inr (by rw [buddy_buddy]; exact setBit_self ..)
    · have grows : ∀ {j}, t.alloc k' j = true → setBit t.alloc k (2 * i) true k' j = true := by
        intro j alloc
        simp [setBit, alloc]
      exact (valid.coalesced below ((setBit_ne t.split true here).symm.trans parent)).imp grows grows
  reserved_alloc held := by
    have alloc := valid.reserved_alloc held
    simp [BuddyTree.halve, setBit, alloc]
  reserved_some := valid.reserved_some

theorem free_halve (valid : t.Valid top reserved) (live : t.Live reserved (k + 1) i) :
    (t.halve k i).Free top k' i' ↔ t.Free top k' i' ∨ (k' = k ∧ i' = 2 * i + 1) := by
  have below := (live.leaf valid).1
  by_cases half : k' = k ∧ i' / 2 = i
  · obtain ⟨rfl, rfl⟩ := half
    have unallocated := valid.halves live (j := i') rfl
    have parent : t.split (k' + 1) (i' / 2) = false := live.2.1
    by_cases first : i' = 2 * (i' / 2)
    · have : ¬ i' = 2 * (i' / 2) + 1 := by omega
      have same : setBit t.alloc k' (2 * (i' / 2)) true k' i' = true := by
        rw [← first]
        exact setBit_self ..
      simp [Free, BuddyTree.halve, same, parent, this]
    · have second : i' = 2 * (i' / 2) + 1 := by omega
      have other : setBit t.alloc k' (2 * (i' / 2)) true k' i' = false := by
        rw [setBit_ne _ _ (by omega), unallocated]
      refine iff_of_true ⟨Nat.lt_of_succ_lt below, ?_, other⟩ (.inr ⟨rfl, second⟩)
      exact setBit_self ..
  · have notFirst : ¬ (k' = k ∧ i' = 2 * i) := by
      rintro ⟨same, rfl⟩
      exact half ⟨same, by omega⟩
    have notSecond : ¬ (k' = k ∧ i' = 2 * i + 1) := by
      rintro ⟨same, rfl⟩
      exact half ⟨same, by omega⟩
    have notParent : ¬ (k' + 1 = k + 1 ∧ i' / 2 = i) := fun same => half ⟨by omega, same.2⟩
    simp [Free, BuddyTree.halve, setBit_ne t.alloc true notFirst, setBit_ne t.split true notParent,
      notSecond]

theorem live_halve (valid : t.Valid top reserved) (live : t.Live reserved (k + 1) i) :
    (t.halve k i).Live reserved k' i' ↔
      (t.Live reserved k' i' ∧ ¬ (k' = k + 1 ∧ i' = i)) ∨ (k' = k ∧ i' = 2 * i) := by
  by_cases whole : k' = k + 1 ∧ i' = i
  · obtain ⟨rfl, rfl⟩ := whole
    simp [Live, BuddyTree.halve]
  · by_cases first : k' = k ∧ i' = 2 * i
    · obtain ⟨rfl, rfl⟩ := first
      have unallocated := valid.halves live (j := 2 * i) (by omega)
      have notHeld : ¬ (k' = 0 ∧ reserved (2 * i)) := by
        rintro ⟨rfl, held⟩
        have alloc := valid.reserved_alloc held
        rw [unallocated] at alloc
        cases alloc
      simp [Live, BuddyTree.halve, setBit_ne t.split true whole, valid.split_false unallocated, notHeld]
    · simp [Live, BuddyTree.halve, setBit_ne t.split true whole, setBit_ne t.alloc true first, whole,
        first]

theorem Valid.merge (valid : t.Valid top reserved) (live : t.Live reserved k i)
    (free : t.Free top k (buddy i)) : (t.merge k i).Valid top reserved where
  bounded {k' i'} alloc := by
    by_cases here : k' = k ∧ i' = i
    · simp [BuddyTree.merge, setBit, here] at alloc
    · exact valid.bounded ((setBit_ne t.alloc false here).symm.trans alloc)
  alloc_of_split {k' i'} isSplit := by
    have notParent : ¬ (k' = k + 1 ∧ i' = i / 2) := by
      rintro ⟨rfl, rfl⟩
      simp [BuddyTree.merge] at isSplit
    have was := (setBit_ne t.split false notParent).symm.trans isSplit
    have notHere : ¬ (k' = k ∧ i' = i) := by
      rintro ⟨rfl, rfl⟩
      rw [live.2.1] at was
      cases was
    exact (setBit_ne t.alloc false notHere).trans (valid.alloc_of_split was)
  parent {k' i'} below alloc := by
    have notHere : ¬ (k' = k ∧ i' = i) := by
      rintro ⟨rfl, rfl⟩
      simp [BuddyTree.merge] at alloc
    have was := (setBit_ne t.alloc false notHere).symm.trans alloc
    have notParent : ¬ (k' + 1 = k + 1 ∧ i' / 2 = i / 2) := by
      rintro ⟨same, half⟩
      obtain rfl : k' = k := by omega
      obtain rfl | rfl := half_cases half
      · exact notHere ⟨rfl, rfl⟩
      · rw [free.2.2] at was
        cases was
    exact (setBit_ne t.split false notParent).trans (valid.parent below was)
  root := by
    have below := valid.below_top live free
    exact (setBit_ne t.split false (by omega)).trans valid.root
  unit j := by
    have apart : ¬ (0 = k + 1 ∧ j = i / 2) := by omega
    exact (setBit_ne t.split false apart).trans (valid.unit j)
  coalesced {k' i'} below parent := by
    have notParent : ¬ (k' + 1 = k + 1 ∧ i' / 2 = i / 2) := by
      rintro ⟨same, half⟩
      simp [BuddyTree.merge, setBit, same, half] at parent
    have was := (setBit_ne t.split false notParent).symm.trans parent
    have keeps : ∀ {j}, j / 2 = i' / 2 → t.alloc k' j = true →
        setBit t.alloc k i false k' j = true := by
      intro j half alloc
      refine (setBit_ne t.alloc false ?_).trans alloc
      rintro ⟨rfl, rfl⟩
      exact notParent ⟨rfl, half.symm⟩
    exact (valid.coalesced below was).imp (keeps rfl) (keeps (buddy_div i'))
  reserved_alloc {u} held := by
    have notHere : ¬ (0 = k ∧ u = i) := by
      rintro ⟨rfl, rfl⟩
      exact live.2.2 ⟨rfl, held⟩
    exact (setBit_ne t.alloc false notHere).trans (valid.reserved_alloc held)
  reserved_some := valid.reserved_some

theorem free_merge (live : t.Live reserved k i)
    (free : t.Free top k (buddy i)) :
    (t.merge k i).Free top k' i' ↔ t.Free top k' i' ∧ ¬ (k' = k ∧ i' = buddy i) := by
  by_cases half : k' + 1 = k + 1 ∧ i' / 2 = i / 2
  · obtain ⟨same, half⟩ := half
    obtain rfl : k' = k := by omega
    have joined : ¬ (t.merge k' i).Free top k' i' := by
      simp [Free, BuddyTree.merge, setBit, half]
    refine iff_of_false joined ?_
    rintro ⟨was, notBuddy⟩
    obtain rfl | rfl := half_cases half
    · have alloc := live.1
      rw [was.2.2] at alloc
      cases alloc
    · exact notBuddy ⟨rfl, rfl⟩
  · have notHere : ¬ (k' = k ∧ i' = i) := by
      rintro ⟨rfl, rfl⟩
      exact half ⟨rfl, rfl⟩
    have notBuddy : ¬ (k' = k ∧ i' = buddy i) := by
      rintro ⟨rfl, rfl⟩
      exact half ⟨rfl, buddy_div i⟩
    simp [Free, BuddyTree.merge, setBit_ne t.split false half, setBit_ne t.alloc false notHere, notBuddy]

theorem live_merge (valid : t.Valid top reserved) (live : t.Live reserved k i) :
    (t.merge k i).Live reserved k' i' ↔
      (t.Live reserved k' i' ∧ ¬ (k' = k ∧ i' = i)) ∨ (k' = k + 1 ∧ i' = i / 2) := by
  have parent := valid.parent (live.leaf valid).1 live.1
  by_cases above : k' = k + 1 ∧ i' = i / 2
  · obtain ⟨rfl, rfl⟩ := above
    have alloc := valid.alloc_of_split parent
    have apart : ¬ (k + 1 = k ∧ i / 2 = i) := by omega
    simp [Live, BuddyTree.merge, setBit_ne t.alloc false apart, alloc]
  · by_cases here : k' = k ∧ i' = i
    · obtain ⟨rfl, rfl⟩ := here
      simp [Live, BuddyTree.merge]
    · simp [Live, BuddyTree.merge, setBit_ne t.alloc false here, setBit_ne t.split false above, here,
        above]

theorem Valid.release (valid : t.Valid top reserved) (live : t.Live reserved k i)
    (used : t.alloc k (buddy i) = true) : (t.release k i).Valid top reserved where
  bounded {k' i'} alloc := by
    by_cases here : k' = k ∧ i' = i
    · simp [BuddyTree.release, setBit, here] at alloc
    · exact valid.bounded ((setBit_ne t.alloc false here).symm.trans alloc)
  alloc_of_split {k' i'} isSplit := by
    refine (setBit_ne t.alloc false ?_).trans (valid.alloc_of_split isSplit)
    rintro ⟨rfl, rfl⟩
    have whole := live.2.1
    rw [show t.split k' i' = true from isSplit] at whole
    cases whole
  parent {k' i'} below alloc := by
    refine valid.parent below ((setBit_ne t.alloc false ?_).symm.trans alloc)
    rintro ⟨rfl, rfl⟩
    simp [BuddyTree.release] at alloc
  root := valid.root
  unit := valid.unit
  coalesced {k' i'} below parent := by
    have keeps : ∀ {j}, ¬ (k' = k ∧ j = i) → t.alloc k' j = true →
        setBit t.alloc k i false k' j = true := fun apart alloc =>
      (setBit_ne t.alloc false apart).trans alloc
    by_cases here : k' = k ∧ i' = i
    · obtain ⟨rfl, rfl⟩ := here
      exact .inr (keeps (fun same => buddy_ne i' same.2) used)
    · by_cases other : k' = k ∧ buddy i' = i
      · obtain ⟨rfl, rfl⟩ := other
        rw [buddy_buddy] at used
        exact .inl (keeps here used)
      · exact (valid.coalesced below parent).imp (keeps here) (keeps other)
  reserved_alloc {u} held := by
    have notHere : ¬ (0 = k ∧ u = i) := by
      rintro ⟨rfl, rfl⟩
      exact live.2.2 ⟨rfl, held⟩
    exact (setBit_ne t.alloc false notHere).trans (valid.reserved_alloc held)
  reserved_some := valid.reserved_some

theorem free_release (valid : t.Valid top reserved) (live : t.Live reserved k i) :
    (t.release k i).Free top k' i' ↔ t.Free top k' i' ∨ (k' = k ∧ i' = i) := by
  by_cases here : k' = k ∧ i' = i
  · obtain ⟨rfl, rfl⟩ := here
    have leaf := live.leaf valid
    simp [Free, BuddyTree.release, leaf.1, leaf.2.1]
  · simp [Free, BuddyTree.release, setBit_ne t.alloc false here, here]

theorem live_release : (t.release k i).Live reserved k' i' ↔
    t.Live reserved k' i' ∧ ¬ (k' = k ∧ i' = i) := by
  by_cases here : k' = k ∧ i' = i
  · obtain ⟨rfl, rfl⟩ := here
    simp [Live, BuddyTree.release]
  · simp [Live, BuddyTree.release, setBit_ne t.alloc false here, here]

end Operations

end BuddyTree

end Riscv2os.Std
