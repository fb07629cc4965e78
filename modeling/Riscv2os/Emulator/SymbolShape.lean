import Mathlib.Order.Antisymmetrization
import Riscv2os.Emulator.SymbolInsert

/-!
# The shape of the symbol map

What a sequence of insertions leaves of an empty map, said of the nodes in the heap: a search tree for the
comparison function, coloured as a red-black tree, with the right links upwards and the right first and last
node. The comparison function may take different keys for the same one.
-/

namespace Riscv2os.Emulator

open Riscv2os.Std
open Riscv2os.Std.ColoredTree
open MapTree

variable {K V : Type}

section Comparisons

/-! ## Comparison functions -/

/-- What a comparison function has to do: with its arguments exchanged it gives the opposite sign, and "not
above" is transitive. -/
structure Orders (comparator : K → K → Int) : Prop where
  swap : ∀ a b, comparator a b < 0 ↔ 0 < comparator b a
  trans : ∀ a b c, comparator a b ≤ 0 → comparator b c ≤ 0 → comparator a c ≤ 0

variable {comparator : K → K → Int}

/-- The keys that the function takes for the same one have one rank. -/
theorem Orders.exists_rank (orders : Orders comparator) :
    ∃ (κ : Type) (_ : LinearOrder κ) (rank : K → κ), Ranks rank comparator := by
  classical
  let preorder : Preorder K := {
    le := fun a b => comparator a b ≤ 0
    le_refl := fun a => by
      have := orders.swap a a
      omega
    le_trans := orders.trans }
  have total : @Std.Total K (· ≤ ·) := ⟨fun a b => by
    have opposite := orders.swap b a
    show comparator a b ≤ 0 ∨ comparator b a ≤ 0
    omega⟩
  have lt_iff : ∀ a b : K, comparator a b < 0 ↔ a < b := by
    intro a b
    have opposite := orders.swap a b
    have opposite' := orders.swap b a
    rw [lt_iff_le_not_ge]
    show _ ↔ comparator a b ≤ 0 ∧ ¬ comparator b a ≤ 0
    omega
  refine ⟨Antisymmetrization K (· ≤ ·), inferInstance, toAntisymmetrization (· ≤ ·), lt_iff, fun a b => ?_⟩
  have opposite := orders.swap a b
  have opposite' := orders.swap b a
  refine Iff.trans ?_ le_antisymm_iff.symm
  show _ ↔ comparator a b ≤ 0 ∧ comparator b a ≤ 0
  omega

theorem Compares.orders [LinearOrder K] (compares : Compares comparator) : Orders comparator where
  swap a b := by
    have less := compares.lt_iff a b
    have less' := compares.lt_iff b a
    have same := compares.eq_iff b a
    rcases lt_trichotomy a b with before | rfl | behind
    · have notEqual := mt same.mp before.ne'
      have notLess := mt less'.mp before.asymm
      have here := less.mpr before
      omega
    · have equal := same.mpr rfl
      omega
    · have there := less'.mpr behind
      have notLess := mt less.mp behind.asymm
      omega
  trans a b c := by
    have le_iff (a b : K) : comparator a b ≤ 0 ↔ a ≤ b := by
      have less := compares.lt_iff a b
      have same := compares.eq_iff a b
      rw [le_iff_lt_or_eq, le_iff_lt_or_eq, less, same]
    rw [le_iff, le_iff, le_iff]
    exact le_trans

end Comparisons

section Shape

/-! ## The nodes in the heap -/

/-- A node of the subtree at an address. -/
inductive Within (heap : Address → Option (MapNode K V)) : Address → Address → Prop where
  | root {a n} (node : heap a = some n) : Within heap a a
  | child {a n b} (d : Side) (node : heap a = some n) (below : Within heap (n.child d) b) : Within heap a b

/-- All paths from an address down to `NULL` have this number of black nodes. -/
inductive BlackHeight (heap : Address → Option (MapNode K V)) : Address → Nat → Prop where
  | null : BlackHeight heap 0 0
  | node {a n h} (node : heap a = some n) (left : BlackHeight heap n.left h)
      (right : BlackHeight heap n.right h) : BlackHeight heap a (if n.color = .black then h + 1 else h)

/-- The key of one node comes before that of another one. -/
def Before (comparator : K → K → Int) (n n' : MapNode K V) : Prop :=
  ∃ key key', n.key = some key ∧ n'.key = some key' ∧ comparator key key' < 0

/-- The key of one node is on this side of that of another one. -/
def OnSide (comparator : K → K → Int) (d : Side) (n' n : MapNode K V) : Prop :=
  match d with
  | .left => Before comparator n' n
  | .right => Before comparator n n'

/-- A node that comes before all others, or `NULL` in an empty map. -/
def IsExtreme (before : MapNode K V → MapNode K V → Prop) (m : CMap K V) (a : Address) : Prop :=
  if m.head = 0 then a = 0
  else ∃ n, m.heap a = some n ∧ ∀ b n', m.heap b = some n' → b ≠ a → before n n'

/-- A red-black search tree, which has all the nodes. -/
structure IsSearchMap (comparator : K → K → Int) (m : CMap K V) : Prop where
  inTree : ∀ a n, m.heap a = some n → Within m.heap m.head a
  search : ∀ a n, m.heap a = some n → ∀ d b n', Within m.heap (n.child d) b → m.heap b = some n' →
    OnSide comparator d n' n
  rootBlack : ∀ n, m.heap m.head = some n → n.color = .black
  redChild : ∀ a n, m.heap a = some n → n.color = .red → ∀ d c, m.heap (n.child d) = some c →
    c.color = .black
  blackHeight : ∃ h, BlackHeight m.heap m.head h
  rootUp : ∀ n, m.heap m.head = some n → n.up = 0
  up : ∀ a n, m.heap a = some n → ∀ d, n.child d ≠ 0 → ∃ c, m.heap (n.child d) = some c ∧ c.up = a
  least : IsExtreme (Before comparator) m m.itLeast
  most : IsExtreme (fun n n' => Before comparator n' n) m m.itMost

section Heap

variable [Inhabited K] [Inhabited V] {heap : Address → Option (MapNode K V)} {m : CMap K V} {ctx : MapPlace K V}
  {c : Color} {x : MapItem K V} {t l r : MapTree K V} {rest : Multiset (Address × MapNode K V)} {up a : Address}
  {n : MapNode K V}

/-- The heap has the cells of a subtree. -/
def Stored (heap : Address → Option (MapNode K V)) (up : Address) (t : MapTree K V) : Prop :=
  ∀ cell ∈ cells up t, heap cell.1 = some cell.2

theorem stored_node : Stored heap up (.node c l x r) ↔
    heap x.addr = some (.of .left c x (addr l) (addr r) up) ∧ Stored heap x.addr l ∧ Stored heap x.addr r := by
  simp only [Stored, cells, Multiset.mem_add, Multiset.mem_singleton, or_imp, forall_and, forall_eq]

theorem Represents.stored (tree : Represents m ctx t rest) : Stored m.heap (above ctx) t := fun cell member =>
  tree.holds.content cell (Multiset.mem_add.mpr (.inl member))

/-- `NULL` is no node. -/
theorem Represents.null (tree : Represents m ctx t rest) : m.heap 0 = none := by
  by_contra some
  obtain ⟨cell, member, zero⟩ := Multiset.mem_map.mp (tree.holds.all 0 some)
  exact tree.holds.nonzero cell member zero

/-- The nodes of a subtree are those of its items. -/
theorem Stored.within_iff (stored : Stored heap up t) (nulls : Nulls t.walk) (null : heap 0 = none) {b : Address} :
    Within heap (addr t) b ↔ ∃ y, .inr y ∈ t.walk ∧ y.addr = b := by
  induction t generalizing up with
  | leaf mark =>
      obtain rfl := nulls.leaf
      constructor
      · rintro (node | ⟨_, node, _⟩)
        · rw [addr_leaf, null] at node
          cases node
        · rw [addr_leaf, null] at node
          cases node
      · rintro ⟨y, member, _⟩
        simp [walk] at member
  | node c l x r ihl ihr =>
      obtain ⟨here, left, right⟩ := stored_node.mp stored
      obtain ⟨nullsLeft, nullsRight⟩ := (nulls_join (c := c) (x := x) .left).mp nulls
      have parts : (node c l x r).walk = l.walk ++ .inr x :: r.walk := rfl
      rw [parts]
      constructor
      · rintro (node | ⟨d, node, below⟩)
        · exact ⟨x, by simp, rfl⟩
        · obtain rfl := Option.some.inj (here.symm.trans node)
          cases d with
          | left =>
              obtain ⟨y, inside, same⟩ := (ihl left nullsLeft).mp below
              exact ⟨y, List.mem_append_left _ inside, same⟩
          | right =>
              obtain ⟨y, inside, same⟩ := (ihr right nullsRight).mp below
              exact ⟨y, List.mem_append_right _ (List.mem_cons_of_mem _ inside), same⟩
      · rintro ⟨y, member, rfl⟩
        rw [List.mem_append, List.mem_cons, Sum.inr.injEq] at member
        rcases member with inside | rfl | inside
        · exact .child .left here ((ihl left nullsLeft).mpr ⟨y, inside, rfl⟩)
        · exact .root here
        · exact .child .right here ((ihr right nullsRight).mpr ⟨y, inside, rfl⟩)

theorem Stored.blackHeight (stored : Stored heap up t) (nulls : Nulls t.walk) {h : Nat} (balanced : t.Balanced h) :
    BlackHeight heap (addr t) h := by
  induction balanced generalizing up with
  | leaf mark =>
      obtain rfl := nulls.leaf
      exact .null
  | @red h l r x _ _ _ _ ihl ihr =>
      obtain ⟨here, left, right⟩ := stored_node.mp stored
      obtain ⟨nullsLeft, nullsRight⟩ := (nulls_join (c := .red) (x := x) .left).mp nulls
      exact .node here (ihl left nullsLeft) (ihr right nullsRight)
  | @black h l r x _ _ ihl ihr =>
      obtain ⟨here, left, right⟩ := stored_node.mp stored
      obtain ⟨nullsLeft, nullsRight⟩ := (nulls_join (c := .black) (x := x) .left).mp nulls
      exact .node here (ihl left nullsLeft) (ihr right nullsRight)

/-- Each node in the heap is one of the tree. -/
theorem Represents.exists_node (tree : Represents m [] t 0) (nulls : Nulls t.walk) (node : m.heap a = some n) :
    ∃ ctx c x l r, t = plug ctx (.node c l x r) ∧ x.addr = a ∧ n = .of .left c x (addr l) (addr r) (above ctx) := by
  obtain ⟨⟨a', n'⟩, member, rfl⟩ := Multiset.mem_map.mp (tree.holds.all a fun none => by
    rw [node] at none
    cases none)
  rw [placeCells, zero_add, add_zero] at member
  obtain ⟨x, inside, rfl, -⟩ := exists_item nulls member
  obtain ⟨ctx, c, l, r, rfl⟩ := exists_plug_node inside
  have here : Represents m ctx (.node c l x r) 0 := (represents_plug ctx _).mp tree
  exact ⟨ctx, c, x, l, r, rfl, rfl, Option.some.inj (node.symm.trans (stored_node.mp here.stored).1)⟩

/-- The tree in the heap is a red-black search tree. -/
structure Grown (comparator : K → K → Int) (m : CMap K V) (t : MapTree K V) : Prop where
  tree : Represents m [] t 0
  redBlack : RedBlack t
  nulls : Nulls t.walk
  ascending : (items t.walk).Pairwise fun x y => comparator x.key y.key < 0
  extremes : Extremes t.walk m.itLeast m.itMost

variable {comparator : K → K → Int}

/-- The map that `c_map_new` makes. -/
theorem grown_new : Grown comparator (CMap.new fun _ => (none : Option (MapNode K V))) (.leaf 0) where
  tree := ⟨.empty, rfl⟩
  redBlack := ⟨rfl, 0, .leaf 0⟩
  nulls a member := by simpa [walk] using member
  ascending := .nil
  extremes := ⟨rfl, rfl⟩

namespace Grown

variable (grown : Grown comparator m t)

include grown

/-- Each item has its node. -/
theorem exists_node {y : MapItem K V} (inside : .inr y ∈ t.walk) :
    ∃ n, m.heap y.addr = some n ∧ n.key = some y.key := by
  obtain ⟨ctx, c, l, r, rfl⟩ := exists_plug_node inside
  have here : Represents m ctx (.node c l y r) 0 := (represents_plug ctx _).mp grown.tree
  exact ⟨_, (stored_node.mp here.stored).1, MapNode.key_of ..⟩

/-- Each node has its item. -/
theorem exists_item (node : m.heap a = some n) : ∃ y, .inr y ∈ t.walk ∧ y.addr = a ∧ n.key = some y.key := by
  obtain ⟨ctx, c, x, l, r, rfl, here, rfl⟩ := grown.tree.exists_node grown.nulls node
  refine ⟨x, ?_, here, MapNode.key_of ..⟩
  rw [walk_plug]
  simp [walk]

theorem search (node : m.heap a = some n) (d : Side) {b : Address} {n' : MapNode K V}
    (below : Within m.heap (n.child d) b) (node' : m.heap b = some n') : OnSide comparator d n' n := by
  obtain ⟨ctx, c, x, l, r, rfl, rfl, rfl⟩ := grown.tree.exists_node grown.nulls node
  have here : Represents m ctx (.node c l x r) 0 := (represents_plug ctx _).mp grown.tree
  obtain ⟨-, left, right⟩ := stored_node.mp here.stored
  obtain ⟨nullsLeft, nullsRight⟩ := (nulls_join (c := c) (x := x) .left).mp grown.nulls.of_plug
  obtain ⟨before, behind⟩ := pairwise_node grown.ascending
  have walks : (plug ctx (.node c l x r)).walk = ColoredTree.before ctx ++ (l.walk ++ .inr x :: r.walk) ++
      ColoredTree.behind ctx := walk_plug ctx _
  cases d with
  | left =>
      obtain ⟨y, inside, rfl⟩ := (left.within_iff nullsLeft grown.tree.null).mp below
      obtain ⟨n'', node'', key⟩ := grown.exists_node (y := y) (by rw [walks]; simp [inside])
      obtain rfl := Option.some.inj (node'.symm.trans node'')
      exact ⟨y.key, x.key, key, MapNode.key_of .., before y inside⟩
  | right =>
      obtain ⟨y, inside, rfl⟩ := (right.within_iff nullsRight grown.tree.null).mp below
      obtain ⟨n'', node'', key⟩ := grown.exists_node (y := y) (by rw [walks]; simp [inside])
      obtain rfl := Option.some.inj (node'.symm.trans node'')
      exact ⟨x.key, y.key, MapNode.key_of .., key, behind y inside⟩

/-- The node at the root. -/
theorem root (node : m.heap m.head = some n) : n.color = .black ∧ n.up = 0 := by
  have head : m.head = addr t := grown.tree.head
  rw [head] at node
  cases t with
  | leaf mark =>
      rw [addr_leaf, grown.nulls.leaf, grown.tree.null] at node
      cases node
  | node c l x r =>
      obtain rfl := Option.some.inj ((stored_node.mp grown.tree.stored).1.symm.trans node)
      exact ⟨grown.redBlack.1, rfl⟩

/-- The children of a node. -/
theorem child (node : m.heap a = some n) (d : Side) : n.child d = 0 ∨
    ∃ c, m.heap (n.child d) = some c ∧ c.up = a ∧ (n.color = .red → c.color = .black) := by
  obtain ⟨ctx, c, x, l, r, rfl, rfl, rfl⟩ := grown.tree.exists_node grown.nulls node
  have here : Represents m ctx (.node c l x r) 0 := (represents_plug ctx _).mp grown.tree
  obtain ⟨-, left, right⟩ := stored_node.mp here.stored
  obtain ⟨nullsLeft, nullsRight⟩ := (nulls_join (c := c) (x := x) .left).mp grown.nulls.of_plug
  obtain ⟨h, balanced, -⟩ := (redBlack_plug ctx).mp grown.redBlack
  -- one child, with what a red parent says of its colour
  have below (s : MapTree K V) (nulls : Nulls s.walk) (stored : Stored m.heap x.addr s)
      (black : c = .red → s.color = .black) : addr s = 0 ∨
        ∃ n, m.heap (addr s) = some n ∧ n.up = x.addr ∧ (c = .red → n.color = .black) := by
    cases s with
    | leaf mark => exact .inl nulls.leaf
    | node c' l' y r' => exact .inr ⟨_, (stored_node.mp stored).1, rfl, black⟩
  cases d with
  | left => exact below l nullsLeft left fun red => by subst red; cases balanced; assumption
  | right => exact below r nullsRight right fun red => by subst red; cases balanced; assumption

theorem empty_iff : items t.walk = [] ↔ m.head = 0 := by
  have head : m.head = addr t := grown.tree.head
  constructor
  · intro nothing
    cases t with
    | leaf mark => exact head.trans grown.nulls.leaf
    | node c l x r => simp [walk] at nothing
  · intro null
    rw [grown.tree.eq_leaf (head.symm.trans null)]
    rfl

/-- An item on one side of all others is in an extreme node. -/
theorem isExtreme {before : MapNode K V → MapNode K V → Prop} {y : MapItem K V} (inside : y ∈ items t.walk)
    (apart : ∀ z ∈ items t.walk, z = y ∨ ∀ n n' : MapNode K V, n.key = some y.key → n'.key = some z.key →
      before n n') : IsExtreme before m y.addr := by
  have present : m.head ≠ 0 := fun null => by
    rw [grown.empty_iff.mpr null] at inside
    cases inside
  obtain ⟨n, node, key⟩ := grown.exists_node (mem_items.mp inside)
  rw [IsExtreme, if_neg present]
  refine ⟨n, node, fun b n' node' other => ?_⟩
  obtain ⟨z, inside', rfl, key'⟩ := grown.exists_item node'
  rcases apart z (mem_items.mpr inside') with rfl | before
  · exact absurd rfl other
  · exact before n n' key key'

theorem least : IsExtreme (Before comparator) m m.itLeast := by
  by_cases null : m.head = 0
  · rw [IsExtreme, if_pos null, grown.extremes.least, grown.empty_iff.mpr null]
    rfl
  · obtain ⟨y, others, listed⟩ := List.exists_cons_of_ne_nil (mt grown.empty_iff.mp null)
    have ascending := grown.ascending
    have least : m.itLeast = y.addr := by
      rw [grown.extremes.least, listed]
      rfl
    rw [listed, List.pairwise_cons] at ascending
    rw [least]
    refine grown.isExtreme (by rw [listed]; exact List.mem_cons_self) fun z member => ?_
    rw [listed, List.mem_cons] at member
    exact member.imp_right fun behind n n' key key' => ⟨_, _, key, key', ascending.1 z behind⟩

theorem most : IsExtreme (fun n n' => Before comparator n' n) m m.itMost := by
  by_cases null : m.head = 0
  · rw [IsExtreme, if_pos null, grown.extremes.most, grown.empty_iff.mpr null]
    rfl
  · obtain ⟨others, y, listed⟩ := (List.eq_nil_or_concat' (items t.walk)).resolve_left (mt grown.empty_iff.mp null)
    have ascending := grown.ascending
    have most : m.itMost = y.addr := by
      rw [grown.extremes.most, listed, List.getLast?_concat]
      rfl
    rw [listed, List.pairwise_append] at ascending
    rw [most]
    refine grown.isExtreme (by rw [listed]; simp) fun z member => ?_
    rw [listed, List.mem_append, List.mem_singleton] at member
    exact member.symm.imp_right fun before n n' key key' =>
      ⟨_, _, key', key, ascending.2.2 z before y (List.mem_singleton_self y)⟩

theorem isSearchMap : IsSearchMap comparator m where
  inTree a n node := by
    have head : m.head = addr t := grown.tree.head
    obtain ⟨y, inside, here, -⟩ := grown.exists_item node
    rw [head, grown.tree.stored.within_iff grown.nulls grown.tree.null]
    exact ⟨y, inside, here⟩
  search a n node d b n' below node' := grown.search node d below node'
  rootBlack n node := (grown.root node).1
  redChild a n node red d c child := by
    rcases grown.child node d with null | ⟨c', child', -, black⟩
    · rw [null, grown.tree.null] at child
      cases child
    · obtain rfl := Option.some.inj (child.symm.trans child')
      exact black red
  blackHeight := by
    have head : m.head = addr t := grown.tree.head
    obtain ⟨-, h, balanced⟩ := grown.redBlack
    rw [head]
    exact ⟨h, grown.tree.stored.blackHeight grown.nulls balanced⟩
  rootUp n node := (grown.root node).2
  up a n node d some := by
    rcases grown.child node d with null | ⟨c, child, up, -⟩
    · exact absurd null some
    · exact ⟨c, child, up⟩
  least := grown.least
  most := grown.most

end Grown

end Heap

end Shape

section Runs

/-! ## Sequences of insertions -/

variable [Inhabited K] [Inhabited V] (comparator : K → K → Int) (fuel : Nat)

/-- `c_map_insert` for these keys and values, at the addresses that `malloc` returns. -/
def insertAll : List (Address × K × V) → CMap.Op K V (List Bool)
  | [] => return []
  | (fresh, key, value) :: calls => do
      let new ← CMap.insert comparator fuel fresh key value
      return new :: (← insertAll calls)

/-- Each address is free when `malloc` returns it. -/
def Allocates : List (Address × K × V) → CMap K V → Prop
  | [], _ => True
  | (fresh, key, value) :: calls, m =>
      (fresh ≠ 0 ∧ m.heap fresh = none) ∧
        match CMap.insert comparator fuel fresh key value m with
        | .ok (_, m') => Allocates calls m'
        | .error _ => True

instance decidableAllocates : (calls : List (Address × K × V)) → (m : CMap K V) →
    Decidable (Allocates comparator fuel calls m)
  | [], _ => .isTrue trivial
  | (fresh, key, value) :: calls, m =>
      have : Decidable (match CMap.insert comparator fuel fresh key value m with
          | .ok (_, m') => Allocates comparator fuel calls m'
          | .error _ => True) :=
        match CMap.insert comparator fuel fresh key value m with
        | .ok (_, m') => decidableAllocates calls m'
        | .error _ => .isTrue trivial
      inferInstanceAs (Decidable (_ ∧ _))

variable {comparator fuel} {m : CMap K V} {t : MapTree K V}

/-- One insertion, of a new key or of one that is there. -/
theorem Grown.insert (grown : Grown comparator m t) (orders : Orders comparator) {fresh : Address} (key : K)
    (value : V) (nonzero : fresh ≠ 0) (free : m.heap fresh = none) (enough : t.count + 1 < fuel) :
    ∃ new m' t', CMap.insert comparator fuel fresh key value m = .ok (new, m') ∧ Grown comparator m' t' ∧
      t'.count ≤ t.count + 1 := by
  obtain ⟨κ, order, rank, ranks⟩ := orders.exists_rank
  let item : MapItem K V := ⟨fresh, key, value⟩
  have unused : m.heap item.addr = none := free
  obtain ⟨m', ran, -, inserted, extremes⟩ :=
    insert_ranked ranks grown.tree grown.redBlack grown.nulls unused nonzero enough
  have rankOrder (w : List (Address ⊕ MapItem K V)) : Ordered (rank ∘ MapItem.key) w ↔
      (items w).Pairwise fun x y => comparator x.key y.key < 0 := by
    simp only [Ordered, Function.comp_apply, ranks.lt_iff]
  have ordered := (rankOrder _).mpr grown.ascending
  have whole : plug (locate (rank ∘ MapItem.key) (rank item.key) t []).1
      (locate (rank ∘ MapItem.key) (rank item.key) t []).2 = t := plug_locate t []
  have splits : Splits (rank ∘ MapItem.key) (rank item.key)
      (locate (rank ∘ MapItem.key) (rank item.key) t []).1 := splits_locate t ordered (splits_nil _)
  generalize locate (rank ∘ MapItem.key) (rank item.key) t [] = place at *
  obtain ⟨ctx, s⟩ := place
  obtain rfl : plug ctx s = t := whole
  cases s with
  | leaf mark =>
      obtain ⟨t', tree, redBlack, walk⟩ := inserted
      dsimp only at walk extremes splits
      have nulls := nulls_single ctx grown.nulls item
      have more : t'.count = (plug ctx (.leaf mark : MapTree K V)).count + 1 := by
        rw [← length_items, ← length_items, walk, (items_single mark item).1, (items_single mark item).2,
          List.length_append, List.length_append, List.length_cons]
        omega
      refine ⟨_, m', t', ran, ⟨tree, redBlack, ?_, ?_, ?_⟩, more.le⟩
      · rw [walk]
        exact nulls
      · rw [walk, ← rankOrder]
        exact ordered.insert splits
      · rw [walk]
        exact extremes
  | node c l x r =>
      refine ⟨_, m', _, ran, ⟨inserted, grown.redBlack, grown.nulls, grown.ascending, ?_⟩, Nat.le_succ _⟩
      exact ⟨extremes.1.trans grown.extremes.least, extremes.2.trans grown.extremes.most⟩

/-- A sequence of insertions. -/
theorem Grown.insertAll (grown : Grown comparator m t) (orders : Orders comparator)
    (calls : List (Address × K × V)) (enough : t.count + calls.length < fuel)
    (allocates : Allocates comparator fuel calls m) :
    ∃ results m' t', insertAll comparator fuel calls m = .ok (results, m') ∧ Grown comparator m' t' := by
  induction calls generalizing m t with
  | nil => exact ⟨[], m, t, rfl, grown⟩
  | cons call calls ih =>
      obtain ⟨fresh, key, value⟩ := call
      obtain ⟨⟨nonzero, free⟩, later⟩ := allocates
      rw [List.length_cons] at enough
      obtain ⟨new, m', t', ran, grown', more⟩ := grown.insert orders key value nonzero free
        (show t.count + 1 < fuel by omega)
      rw [ran] at later
      obtain ⟨results, m'', t'', rest, grown''⟩ := ih grown' (by omega) later
      exact ⟨new :: results, m'', t'', (run_bind ran).trans ((run_bind rest).trans rfl), grown''⟩

/-- Insertions into an empty map, each of any key, leave a red-black search tree. -/
theorem insertAll_isSearchMap (orders : Orders comparator) (calls : List (Address × K × V))
    (enough : calls.length < fuel)
    (allocates : Allocates comparator fuel calls (CMap.new fun _ => none)) :
    ∃ results m, insertAll comparator fuel calls (CMap.new fun _ => none) = .ok (results, m) ∧
      IsSearchMap comparator m := by
  have fits : (0 : Nat) + calls.length < fuel := by omega
  obtain ⟨results, m, t, ran, grown⟩ := grown_new.insertAll orders calls fits allocates
  exact ⟨results, m, ran, grown.isSearchMap⟩

/-- Five names, of which one is inserted twice. -/
theorem insertAll_isSearchMap_five : ∃ results m, insertAll CMap.cmpUint 7 [(1, 10, "a"), (2, 20, "b"),
    (3, 30, "c"), (4, 20, "b2"), (4, 25, "d"), (5, 27, "e")] (CMap.new fun _ => none) = .ok (results, m) ∧
      IsSearchMap CMap.cmpUint m :=
  insertAll_isSearchMap cmpUint_compares.orders _ (by decide) (by decide)

end Runs

end Riscv2os.Emulator
