import Riscv2os.Emulator.SymbolMap

/-!
# The tree in the symbol map

The nodes of a map, as a tree of items at their addresses: `Represents` says that the heap holds the cells of
a subtree and of the place that it is in, with all links, `up` included. A leaf is `NULL`, or the address of
the blank node that stands in for one during a removal. Each primitive of the map has its effect on the
represented tree.
-/

namespace Riscv2os.Emulator

open Riscv2os.Std
open Riscv2os.Std.ColoredTree

/-- What a node holds, and where it lies. -/
structure MapItem (K V : Type) where
  addr : Address
  key : K
  value : V
deriving DecidableEq

/-- The tree of a map. -/
abbrev MapTree (K V : Type) := ColoredTree Address (MapItem K V)

/-- The nodes above a place. -/
abbrev MapPlace (K V : Type) := List (Frame Address (MapItem K V))

namespace MapTree

variable {K V : Type}

/-- The address of the root. -/
def addr : MapTree K V → Address
  | .leaf a => a
  | .node _ _ x _ => x.addr

@[simp] theorem addr_leaf (a : Address) : addr (.leaf a : MapTree K V) = a := rfl

@[simp] theorem addr_join (d : Side) (c : Color) (x : MapItem K V) (t s : MapTree K V) :
    addr (join d c x t s) = x.addr := by
  cases d <;> rfl

@[simp] theorem addr_blacken (t : MapTree K V) : addr t.blacken = addr t := by cases t <;> rfl

end MapTree

open MapTree

namespace MapNode

variable {K V : Type}

/-- The node with this item, one child on side `d` and one on the other. -/
def of (d : Side) (c : Color) (x : MapItem K V) (a b up : Address) : MapNode K V :=
  match d with
  | .left => ⟨some x.key, some x.value, a, b, up, c⟩
  | .right => ⟨some x.key, some x.value, b, a, up, c⟩

variable (d : Side) (c c' : Color) (x : MapItem K V) (a b up e : Address)

@[simp] theorem child_of : (of d c x a b up).child d = a := by cases d <;> rfl

@[simp] theorem child_other_of : (of d c x a b up).child d.other = b := by cases d <;> rfl

@[simp] theorem up_of : (of d c x a b up).up = up := by cases d <;> rfl

@[simp] theorem color_of : (of d c x a b up).color = c := by cases d <;> rfl

@[simp] theorem key_of : (of d c x a b up).key = some x.key := by cases d <;> rfl

@[simp] theorem data_of : (of d c x a b up).data = some x.value := by cases d <;> rfl

@[simp] theorem setChild_of : (of d c x a b up).setChild d e = of d c x e b up := by cases d <;> rfl

@[simp] theorem setChild_other_of : (of d c x a b up).setChild d.other e = of d c x a e up := by cases d <;> rfl

@[simp] theorem setUp_of : (of d c x a b up).setUp e = of d c x a b e := by cases d <;> rfl

@[simp] theorem setColor_of : (of d c x a b up).setColor c' = of d c' x a b up := by cases d <;> rfl

/-- The blank node. -/
def blank [Inhabited K] [Inhabited V] (up : Address) : MapNode K V :=
    ⟨some default, some default, 0, 0, up, .black⟩

end MapNode

section Cells

variable {K V : Type} [Inhabited K] [Inhabited V]

/-- The cells of a tree below `up`. -/
def cells (up : Address) : MapTree K V → Multiset (Address × MapNode K V)
  | .leaf a => if a = 0 then 0 else {(a, .blank up)}
  | .node c l x r => {(x.addr, .of .left c x (addr l) (addr r) up)} + (cells x.addr l + cells x.addr r)

theorem cells_leaf_zero (up : Address) : cells up (.leaf 0 : MapTree K V) = 0 := if_pos rfl

theorem cells_leaf (up : Address) {a : Address} (blank : a ≠ 0) :
    cells up (.leaf a : MapTree K V) = {(a, .blank up)} := if_neg blank

theorem cells_join (d : Side) (c : Color) (x : MapItem K V) (t s : MapTree K V) (up : Address) :
    cells up (join d c x t s) =
      {(x.addr, .of d c x (addr t) (addr s) up)} + (cells x.addr t + cells x.addr s) := by
  cases d
  · rfl
  · exact congrArg _ (add_comm ..)

/-- The node right above a place, or `NULL`. -/
def above : MapPlace K V → Address
  | [] => 0
  | f :: _ => f.item.addr

/-- The cells above a place, and beside it. -/
def placeCells : MapPlace K V → Address → Multiset (Address × MapNode K V)
  | [], _ => 0
  | ⟨d, c, x, s⟩ :: ctx, hole =>
      {(x.addr, .of d c x hole (addr s) (above ctx))} + (cells x.addr s + placeCells ctx x.addr)

/-- The root, with this node in the place. -/
def rootOf : MapPlace K V → Address → Address
  | [], a => a
  | f :: ctx, _ => rootOf ctx f.item.addr

/-- The map has a subtree in its place, and the heap holds these other cells. -/
structure Represents (m : CMap K V) (ctx : MapPlace K V) (t : MapTree K V)
    (rest : Multiset (Address × MapNode K V)) : Prop where
  holds : HoldsCells m.heap (cells (above ctx) t + (placeCells ctx (addr t) + rest))
  head : m.head = rootOf ctx (addr t)

variable {heap : Address → Option (MapNode K V)} {m : CMap K V} {a b : Address} {ctx : MapPlace K V}
  {t s : MapTree K V}
  {rest more : Multiset (Address × MapNode K V)} {d : Side} {c : Color} {x : MapItem K V} {n : MapNode K V}

/-- One step up or down. -/
theorem represents_cons (f : Frame Address (MapItem K V)) :
    Represents m (f :: ctx) t rest ↔ Represents m ctx (f.fill t) rest := by
  obtain ⟨d, c, x, s⟩ := f
  have same : cells (above (⟨d, c, x, s⟩ :: ctx)) t + (placeCells (⟨d, c, x, s⟩ :: ctx) (addr t) + rest) =
      cells (above ctx) (join d c x t s) + (placeCells ctx (addr (join d c x t s)) + rest) := by
    rw [cells_join, addr_join, placeCells, above]
    abel
  have same' : rootOf (⟨d, c, x, s⟩ :: ctx) (addr t) = rootOf ctx (addr (join d c x t s)) := by
    rw [addr_join, rootOf]
  constructor
  · rintro ⟨cells, head⟩
    exact ⟨same ▸ cells, same' ▸ head⟩
  · rintro ⟨cells, head⟩
    exact ⟨same ▸ cells, same' ▸ head⟩

/-- The whole tree. -/
theorem represents_plug (ctx : MapPlace K V) (t : MapTree K V) :
    Represents m [] (plug ctx t) rest ↔ Represents m ctx t rest := by
  induction ctx generalizing t with
  | nil => rfl
  | cons f ctx ih => exact (ih (f.fill t)).trans (represents_cons f).symm

theorem addr_ne (holds : HoldsCells heap (cells b t + ({(a, n)} + more))) : addr t ≠ a := by
  cases t with
  | leaf e =>
      by_cases null : e = 0
      · have := (holds.reorder ({(a, n)} + (cells b (.leaf e) + more)) (by abel)).ne_zero
        rw [addr_leaf, null]
        exact this.symm
      · rw [cells_leaf b null] at holds
        exact (holds.reorder ({(a, n)} + ({(e, .blank b)} + more)) (by abel)).ne
  | node c l x r =>
      unfold cells at holds
      exact (holds.reorder ({(a, n)} + ({(x.addr, .of .left c x (addr l) (addr r) b)} +
        (cells x.addr l + cells x.addr r + more))) (by abel)).ne

/-- The cell of a subtree that is there. -/
theorem exists_cell (some : addr t ≠ 0) (up : Address) :
    ∃ n more, cells up t = {(addr t, n)} + more ∧ n.up = up ∧ n.color = t.color := by
  cases t with
  | leaf a => exact ⟨_, 0, (cells_leaf up some).trans (add_zero _).symm, rfl, rfl⟩
  | node c l x r => exact ⟨_, _, rfl, rfl, rfl⟩

/-- The root above a place is one of its cells. -/
theorem exists_root_cell (f : Frame Address (MapItem K V)) (ctx : MapPlace K V) (a b : Address) :
    ∃ n more, placeCells (f :: ctx) a = {(rootOf (f :: ctx) b, n)} + more := by
  obtain ⟨d, c, x, s⟩ := f
  induction ctx generalizing d c x s a b with
  | nil => exact ⟨_, _, rfl⟩
  | cons g ctx ih =>
      obtain ⟨d', c', y, u⟩ := g
      obtain ⟨n, more, same⟩ := ih x.addr x.addr d' c' y u
      refine ⟨n, {(x.addr, .of d c x a (addr s) y.addr)} + (cells x.addr s + more), ?_⟩
      have root : rootOf (⟨d, c, x, s⟩ :: ⟨d', c', y, u⟩ :: ctx) b =
          rootOf (⟨d', c', y, u⟩ :: ctx) x.addr := rfl
      rw [placeCells, same, above, root]
      abel

theorem rootOf_ne (f : Frame Address (MapItem K V)) (e : Address)
    (holds : HoldsCells heap (placeCells (f :: ctx) b + ({(a, n)} + more))) : rootOf (f :: ctx) e ≠ a := by
  obtain ⟨root, others, same⟩ := exists_root_cell f ctx b e
  rw [same] at holds
  exact (holds.reorder ({(a, n)} + ({(rootOf (f :: ctx) e, root)} + (others + more))) (by abel)).ne

end Cells

section Calls

/-! ## The primitives -/

variable {K V α β : Type}

/-- Only the heap and the head differ. -/
structure Same (m m' : CMap K V) : Prop where
  size : m'.size = m.size
  itMost : m'.itMost = m.itMost
  itLeast : m'.itLeast = m.itLeast

theorem Same.refl (m : CMap K V) : Same m m := ⟨rfl, rfl, rfl⟩

theorem Same.trans {m m' m'' : CMap K V} (first : Same m m') (second : Same m' m'') : Same m m'' :=
  ⟨second.size.trans first.size, second.itMost.trans first.itMost, second.itLeast.trans first.itLeast⟩

/-- The call returns this, and changes only the heap and the head. -/
def Does (op : CMap.Op K V α) (m : CMap K V) (result : α) (post : CMap K V → Prop) : Prop :=
  ∃ m', op m = .ok (result, m') ∧ Same m m' ∧ post m'

variable {op : CMap.Op K V α} {next : α → CMap.Op K V β} {m : CMap K V} {result : α} {final : β}
  {post middle : CMap K V → Prop}

/-- A sequence after a call that returns. -/
theorem run_bind {m' : CMap K V} (ran : op m = .ok (result, m')) : (op >>= next) m = next result m' := by
  show (op m >>= fun r => next r.1 r.2) = _
  rw [ran]
  rfl

theorem Does.bind (first : Does op m result middle)
    (second : ∀ m', middle m' → Does (next result) m' final post) : Does (op >>= next) m final post := by
  obtain ⟨m', ran, same, holds⟩ := first
  obtain ⟨m'', ran', same', holds'⟩ := second m' holds
  exact ⟨m'', (run_bind ran).trans ran', same.trans same', holds'⟩

/-- The call returns a result with this property, and changes only the heap and the head. -/
def Ends (op : CMap.Op K V α) (m : CMap K V) (post : α → CMap K V → Prop) : Prop :=
  ∃ result m', op m = .ok (result, m') ∧ Same m m' ∧ post result m'

theorem Does.bindEnds {post : β → CMap K V → Prop} (first : Does op m result middle)
    (second : ∀ m', middle m' → Ends (next result) m' post) : Ends (op >>= next) m post := by
  obtain ⟨m', ran, same, holds⟩ := first
  obtain ⟨final, m'', ran', same', holds'⟩ := second m' holds
  exact ⟨final, m'', (run_bind ran).trans ran', same.trans same', holds'⟩

theorem Ends.bind {middle : α → CMap K V → Prop} (first : Ends op m middle)
    (second : ∀ result m', middle result m' → Does (next result) m' final post) :
    Does (op >>= next) m final post := by
  obtain ⟨result, m', ran, same, holds⟩ := first
  obtain ⟨m'', ran', same', holds'⟩ := second result m' holds
  exact ⟨m'', (run_bind ran).trans ran', same.trans same', holds'⟩

theorem Ends.reads {post : β → CMap K V → Prop} (reads : op m = .ok (result, m))
    (then_ : Ends (next result) m post) :
    Ends (op >>= next) m post := by
  obtain ⟨final, m', ran, after⟩ := then_
  exact ⟨final, m', (run_bind reads).trans ran, after⟩

theorem Ends.pure {post : α → CMap K V → Prop} (result : α) (holds : post result m) :
    Ends (pure result) m post :=
  ⟨result, m, rfl, .refl m, holds⟩

theorem Does.pure (result : α) (holds : post m) : Does (pure result) m result post := ⟨m, rfl, .refl m, holds⟩

/-- A call that only reads. -/
theorem Does.reads (reads : op m = .ok (result, m)) (then_ : Does (next result) m final post) :
    Does (op >>= next) m final post := by
  obtain ⟨m', ran, after⟩ := then_
  exact ⟨m', (run_bind reads).trans ran, after⟩

theorem Does.mono (does : Does op m result middle) (weaker : ∀ m', middle m' → post m') :
    Does op m result post := by
  obtain ⟨m', ran, same, holds⟩ := does
  exact ⟨m', ran, same, weaker m' holds⟩

variable {a : Address} {n : MapNode K V} {cs : Multiset (Address × MapNode K V)}

theorem load_ok (holds : HoldsCells m.heap ({(a, n)} + cs)) : CMap.load a m = .ok (n, m) := by
  unfold CMap.load
  rw [if_neg holds.ne_zero, holds.get]

theorem Does.load {next : MapNode K V → CMap.Op K V β} (holds : HoldsCells m.heap ({(a, n)} + cs))
    (then_ : Does (next n) m final post) : Does (CMap.load a >>= next) m final post :=
  .reads (load_ok holds) then_

theorem Does.get {next : CMap K V → CMap.Op K V β} (then_ : Does (next m) m final post) :
    Does (get >>= next) m final post := then_

theorem store_does (holds : HoldsCells m.heap ({(a, n)} + cs)) (change : MapNode K V → MapNode K V) :
    Does (CMap.store a change) m () fun m' => HoldsCells m'.heap ({(a, change n)} + cs) ∧ m'.head = m.head :=
  Does.load holds ⟨_, rfl, ⟨rfl, rfl, rfl⟩, holds.store (change n), rfl⟩

variable [Inhabited K] [Inhabited V]

/-- The subtree gets another parent. -/
theorem adopt_does {t : MapTree K V} {up : Address} (holds : HoldsCells m.heap (cells up t + cs))
    (node : Address) :
    Does (CMap.adopt (addr t) node) m () fun m' =>
      HoldsCells m'.heap (cells node t + cs) ∧ m'.head = m.head := by
  unfold CMap.adopt
  cases t with
  | leaf e =>
      by_cases null : e = 0
      · rw [addr_leaf, if_pos null]
        rw [null, cells_leaf_zero] at holds
        refine .pure () ⟨?_, rfl⟩
        rwa [null, cells_leaf_zero]
      · rw [addr_leaf, if_neg null]
        rw [cells_leaf up null] at holds
        rw [cells_leaf node null]
        exact store_does holds _
  | node c l x r =>
      unfold cells at holds ⊢
      rw [add_assoc] at holds ⊢
      rw [if_neg (show addr (.node c l x r) ≠ 0 from holds.ne_zero)]
      exact store_does holds _

/-- Another node comes to the place. -/
theorem relink_does {ctx : MapPlace K V} (holds : HoldsCells m.heap (placeCells ctx a + ({(a, n)} + cs)))
    (node : Address) :
    Does (CMap.relink (above ctx) a node) m () fun m' =>
      HoldsCells m'.heap (placeCells ctx node + ({(a, n)} + cs)) ∧ m'.head = m.head := by
  unfold CMap.relink
  cases ctx with
  | nil =>
      rw [above, if_pos rfl]
      exact .pure () ⟨holds, rfl⟩
  | cons f ctx =>
      obtain ⟨d, c, x, s⟩ := f
      unfold placeCells at holds ⊢
      rw [add_assoc] at holds ⊢
      rw [above, if_neg holds.ne_zero]
      have other : addr s ≠ a := addr_ne (b := x.addr) (holds.reorder (cells x.addr s + ({(a, n)} +
        ({(x.addr, .of d c x a (addr s) (above ctx))} + (placeCells ctx x.addr + cs)))) (by abel))
      refine Does.load holds ?_
      cases d with
      | left =>
          rw [if_neg (show (MapNode.of .left c x a (addr s) (above ctx)).right ≠ a from other)]
          exact store_does holds _
      | right =>
          rw [if_pos (show (MapNode.of .right c x a (addr s) (above ctx)).right = a from rfl)]
          exact store_does holds _

/-- The root is changed along with the node in the place. -/
theorem rehead_does {ctx : MapPlace K V} {b : Address}
    (holds : HoldsCells m.heap (placeCells ctx b + ({(a, n)} + cs))) (root : m.head = rootOf ctx a)
    (node : Address) :
    Does (CMap.rehead a node) m () fun m' => m'.heap = m.heap ∧ m'.head = rootOf ctx node := by
  unfold CMap.rehead
  refine Does.get ?_
  rw [root]
  cases ctx with
  | nil =>
      rw [rootOf, if_pos rfl]
      exact ⟨_, rfl, ⟨rfl, rfl, rfl⟩, rfl, rfl⟩
  | cons f ctx =>
      rw [if_neg (rootOf_ne f a holds).symm]
      exact .pure () ⟨rfl, root⟩

end Calls

section Moves

/-! ## Rotations and colours -/

variable {K V : Type} [Inhabited K] [Inhabited V] {m : CMap K V} {ctx : MapPlace K V} {c c' : Color}
  {x y : MapItem K V} {t s e : MapTree K V} {rest : Multiset (Address × MapNode K V)}

/-- A rotation of the node in a place. -/
theorem rotate_does (d : Side)
    (tree : Represents m ctx (join d c x t (join d c' y s e)) rest) :
    Does (CMap.rotate d x.addr) m y.addr fun m' =>
      Represents m' ctx (join d c' y (join d c x t s) e) rest := by
  obtain ⟨holds, root⟩ := tree
  rw [addr_join] at holds root
  -- the cells that change, and all others
  generalize others : cells x.addr t + (cells y.addr e + rest) = F
  have cells₀ : HoldsCells m.heap ({(x.addr, .of d c x (addr t) y.addr (above ctx))} +
      ({(y.addr, .of d c' y (addr s) (addr e) x.addr)} + (cells y.addr s + (placeCells ctx x.addr + F)))) := by
    refine holds.of_eq ?_
    rw [cells_join, cells_join, addr_join, ← others]
    abel
  unfold CMap.rotate
  refine Does.load cells₀ ?_
  simp only [MapNode.child_other_of, MapNode.up_of]
  refine Does.load cells₀.swap ?_
  simp only [MapNode.child_of]
  refine (store_does cells₀.swap _).bind fun m₁ ⟨cells₁, same₁⟩ => ?_
  refine (store_does cells₁ _).bind fun m₂ ⟨cells₂, same₂⟩ => ?_
  refine (store_does cells₂.swap _).bind fun m₃ ⟨cells₃, same₃⟩ => ?_
  refine (store_does cells₃ _).bind fun m₄ ⟨cells₄, same₄⟩ => ?_
  simp only [MapNode.setUp_of, MapNode.setChild_of, MapNode.setChild_other_of] at cells₄
  have cells₅ := cells₄.reorder (cells y.addr s + (placeCells ctx x.addr +
    ({(x.addr, .of d c x (addr t) (addr s) y.addr)} +
      ({(y.addr, .of d c' y x.addr (addr e) (above ctx))} + F)))) (by abel)
  refine (adopt_does cells₅ _).bind fun m₆ ⟨cells₆, same₆⟩ => ?_
  have cells₇ := cells₆.reorder (placeCells ctx x.addr + ({(x.addr, .of d c x (addr t) (addr s) y.addr)} +
    (cells x.addr s + ({(y.addr, .of d c' y x.addr (addr e) (above ctx))} + F)))) (by abel)
  refine (relink_does cells₇ _).bind fun m₈ ⟨cells₈, same₈⟩ => ?_
  have root₈ : m₈.head = rootOf ctx x.addr := by
    rw [same₈, same₆, same₄, same₃, same₂, same₁, root]
  refine (rehead_does cells₈ root₈ _).bind fun m₉ ⟨heap, head⟩ => ?_
  refine .pure y.addr ⟨?_, ?_⟩
  · rw [heap]
    refine cells₈.of_eq ?_
    rw [cells_join, cells_join, addr_join, addr_join, ← others]
    abel
  · rw [head, addr_join]

/-- The node in a place. -/
theorem Represents.node (d : Side) (tree : Represents m ctx (join d c x t s) rest) :
    ∃ others, HoldsCells m.heap ({(x.addr, .of d c x (addr t) (addr s) (above ctx))} + others) := by
  have holds := tree.holds
  rw [cells_join, add_assoc] at holds
  exact ⟨_, holds⟩

variable {α : Type} {final : α} {post : CMap K V → Prop}

theorem Does.loadNode {next : MapNode K V → CMap.Op K V α} (tree : Represents m ctx (join d c x t s) rest)
    (then_ : Does (next (.of d c x (addr t) (addr s) (above ctx))) m final post) :
    Does (CMap.load x.addr >>= next) m final post := by
  obtain ⟨others, holds⟩ := tree.node
  exact .load holds then_

/-- A node above a place is read. -/
theorem Does.loadAbove {next : MapNode K V → CMap.Op K V α} (tree : Represents m (⟨d, c, x, s⟩ :: ctx) t rest)
    (then_ : Does (next (.of d c x (addr t) (addr s) (above ctx))) m final post) :
    Does (CMap.load x.addr >>= next) m final post :=
  .loadNode ((represents_cons _).mp tree) then_

/-- The colour of a subtree is read. -/
theorem colorOf_ok (tree : Represents m ctx t rest) : CMap.colorOf (addr t) m = .ok (t.color, m) := by
  unfold CMap.colorOf
  cases t with
  | leaf a =>
      rw [addr_leaf]
      by_cases null : a = 0
      · rw [if_pos null]
        rfl
      · have holds := tree.holds
        rw [cells_leaf _ null] at holds
        rw [if_neg null, run_bind (load_ok holds)]
        rfl
  | node c l x r =>
      obtain ⟨others, holds⟩ := tree.node (d := .left)
      have here : addr (node c l x r) = x.addr := rfl
      rw [here, if_neg holds.ne_zero, run_bind (load_ok holds)]
      rfl

/-- A node that is in no tree is freed. -/
theorem deleteNode_does {a : Address} {n : MapNode K V} (tree : Represents m ctx t ({(a, n)} + rest)) :
    Does (CMap.deleteNode a) m () fun m' => Represents m' ctx t rest := by
  have holds :=
    tree.holds.reorder ({(a, n)} + (cells (above ctx) t + (placeCells ctx (addr t) + rest))) (by abel)
  exact .load holds ⟨_, rfl, ⟨rfl, rfl, rfl⟩, holds.free, tree.head⟩

/-- A node is painted. -/
theorem paint_does (c' : Color) (tree : Represents m ctx (join d c x t s) rest) :
    Does (CMap.store x.addr (MapNode.setColor c')) m () fun m' => Represents m' ctx (join d c' x t s) rest := by
  obtain ⟨holds, head⟩ := tree
  rw [cells_join, add_assoc, addr_join] at holds
  refine (store_does holds _).mono fun m' ⟨holds', head'⟩ => ⟨?_, ?_⟩
  · rw [cells_join, add_assoc, addr_join, ← MapNode.setColor_of]
    exact holds'
  · rw [head', head, addr_join, addr_join]

/-- A node above a place is painted. -/
theorem paintAbove_does (c' : Color) (tree : Represents m (⟨d, c, x, s⟩ :: ctx) t rest) :
    Does (CMap.store x.addr (MapNode.setColor c')) m () fun m' => Represents m' (⟨d, c', x, s⟩ :: ctx) t rest :=
  (paint_does c' ((represents_cons _).mp tree)).mono fun _ tree => (represents_cons _).mpr tree

/-- A subtree that is there is painted black. -/
theorem paintBlack_does (tree : Represents m ctx t rest) (some : addr t ≠ 0) :
    Does (CMap.store (addr t) (MapNode.setColor .black)) m () fun m' => Represents m' ctx t.blacken rest := by
  cases t with
  | leaf a =>
      obtain ⟨holds, head⟩ := tree
      rw [addr_leaf] at some
      rw [cells_leaf _ some] at holds
      refine (store_does holds _).mono fun m' ⟨holds', head'⟩ => ⟨?_, head'.trans head⟩
      rw [blacken, cells_leaf _ some]
      exact holds'
  | node c l x r => exact paint_does (d := .left) .black tree

end Moves

end Riscv2os.Emulator
