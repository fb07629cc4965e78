import Mathlib.Tactic

/-!
# Red-black trees

Binary trees with coloured nodes, where each leaf carries a mark. A place in a tree is the list of the nodes
from there up to the root (its context), so that code which climbs from a node can be followed: `Accepts` says
which subtrees fit in a place. `walk` is what a tree holds from left to right; rotations and colours do not
change it.
-/

namespace Riscv2os.Std

universe u v w

/-- One of the two children of a node. -/
inductive Side where
  | left
  | right
deriving DecidableEq, Repr

namespace Side

/-- The other child. -/
def other : Side → Side
  | left => right
  | right => left

@[simp] theorem other_other (d : Side) : d.other.other = d := by cases d <;> rfl

@[simp] theorem other_ne (d : Side) : d.other ≠ d := by cases d <;> decide

@[simp] theorem ne_other (d : Side) : d ≠ d.other := by cases d <;> decide

end Side

/-- The colour of a node. -/
inductive Color where
  | red
  | black
deriving DecidableEq, Repr

/-- A tree with items in its nodes and marks in its leaves. -/
inductive ColoredTree (β : Type u) (α : Type v) where
  | leaf (mark : β)
  | node (color : Color) (left : ColoredTree β α) (item : α) (right : ColoredTree β α)

namespace ColoredTree

variable {β : Type u} {α : Type v}

/-- Leaves are black. -/
def color : ColoredTree β α → Color
  | leaf _ => .black
  | node c .. => c

/-- The root painted black. -/
def blacken : ColoredTree β α → ColoredTree β α
  | leaf mark => leaf mark
  | node _ l x r => node .black l x r

/-- The marks and the items, from left to right. -/
def walk : ColoredTree β α → List (β ⊕ α)
  | leaf mark => [.inl mark]
  | node _ l x r => l.walk ++ .inr x :: r.walk

/-- The items of a walk. -/
def items (walk : List (β ⊕ α)) : List α := walk.filterMap Sum.getRight?

@[simp] theorem items_append (w₁ w₂ : List (β ⊕ α)) : items (w₁ ++ w₂) = items w₁ ++ items w₂ :=
  List.filterMap_append

@[simp] theorem items_cons_inr (x : α) (w : List (β ⊕ α)) : items (.inr x :: w) = x :: items w := rfl

@[simp] theorem items_cons_inl (mark : β) (w : List (β ⊕ α)) : items (.inl mark :: w) = items w := rfl

@[simp] theorem items_nil : items ([] : List (β ⊕ α)) = [] := rfl

theorem mem_items {x : α} {w : List (β ⊕ α)} : x ∈ items w ↔ .inr x ∈ w := by
  unfold items
  rw [List.mem_filterMap]
  constructor
  · rintro ⟨entry, member, same⟩
    obtain rfl := Sum.getRight?_eq_some_iff.mp same
    exact member
  · exact fun member => ⟨_, member, rfl⟩

/-- The number of nodes. -/
def count : ColoredTree β α → Nat
  | leaf _ => 0
  | node _ l _ r => l.count + r.count + 1

/-- A node with `t` on this side and `s` on the other. -/
def join (d : Side) (c : Color) (x : α) (t s : ColoredTree β α) : ColoredTree β α :=
  match d with
  | .left => node c t x s
  | .right => node c s x t

/-- No red node has a red child, and all paths down have as many black nodes as the height says. -/
inductive Balanced : Nat → ColoredTree β α → Prop where
  | leaf (mark : β) : Balanced 0 (leaf mark)
  | red {n : Nat} {l r : ColoredTree β α} {x : α} (left : Balanced n l) (right : Balanced n r)
      (leftBlack : l.color = .black) (rightBlack : r.color = .black) : Balanced n (node .red l x r)
  | black {n : Nat} {l r : ColoredTree β α} {x : α} (left : Balanced n l) (right : Balanced n r) :
      Balanced (n + 1) (node .black l x r)

/-- A node above a place, with its other subtree. -/
structure Frame (β : Type u) (α : Type v) where
  side : Side
  color : Color
  item : α
  sibling : ColoredTree β α

/-- The node with this subtree in the place. -/
def Frame.fill (f : Frame β α) (t : ColoredTree β α) : ColoredTree β α := join f.side f.color f.item t f.sibling

/-- The whole tree with this subtree in the place. -/
def plug : List (Frame β α) → ColoredTree β α → ColoredTree β α
  | [], t => t
  | f :: ctx, t => plug ctx (f.fill t)

/-- The place is below a black node. -/
def Guarded : List (Frame β α) → Prop
  | [] => False
  | f :: _ => f.color = .black

/-- The place is for a balanced tree of this height. -/
def Accepts : List (Frame β α) → Nat → Prop
  | [], _ => True
  | f :: ctx, n =>
      f.sibling.Balanced n ∧
        match f.color with
        | .red => f.sibling.color = .black ∧ Guarded ctx ∧ Accepts ctx n
        | .black => Accepts ctx (n + 1)

/-- A balanced tree with a black root. -/
def RedBlack (t : ColoredTree β α) : Prop := t.color = .black ∧ ∃ n, t.Balanced n

section Joins

variable (d : Side) (c : Color) (x : α) (t s : ColoredTree β α) (n : Nat)

@[simp] theorem color_join : (join d c x t s).color = c := by cases d <;> rfl

@[simp] theorem blacken_join : (join d c x t s).blacken = join d .black x t s := by cases d <;> rfl

@[simp] theorem count_join : (join d c x t s).count = t.count + s.count + 1 := by
  cases d
  · rfl
  · exact congrArg (· + 1) (Nat.add_comm ..)

theorem join_other : join d.other c x t s = join d c x s t := by cases d <;> rfl

/-- A node has its items between those of its subtrees, on whichever side they are. -/
theorem walk_join : (join d c x t s).walk =
    match d with
    | .left => t.walk ++ .inr x :: s.walk
    | .right => s.walk ++ .inr x :: t.walk := by
  cases d <;> rfl

@[simp] theorem balanced_join_red :
    (join d .red x t s).Balanced n ↔
      (t.Balanced n ∧ s.Balanced n) ∧ t.color = .black ∧ s.color = .black := by
  cases d
  · exact ⟨fun | .red l r lb rb => ⟨⟨l, r⟩, lb, rb⟩, fun ⟨⟨l, r⟩, lb, rb⟩ => .red l r lb rb⟩
  · exact ⟨fun | .red l r lb rb => ⟨⟨r, l⟩, rb, lb⟩, fun ⟨⟨r, l⟩, rb, lb⟩ => .red l r lb rb⟩

@[simp] theorem balanced_join_black :
    (join d .black x t s).Balanced (n + 1) ↔ t.Balanced n ∧ s.Balanced n := by
  cases d
  · exact ⟨fun | .black l r => ⟨l, r⟩, fun ⟨l, r⟩ => .black l r⟩
  · exact ⟨fun | .black l r => ⟨r, l⟩, fun ⟨r, l⟩ => .black l r⟩

end Joins

variable {t t' s : ColoredTree β α} {ctx : List (Frame β α)} {n : Nat} {d : Side} {c : Color} {x : α}

theorem walk_blacken : t.blacken.walk = t.walk := by cases t <;> rfl

/-- Colours do not matter, and subtrees can stand for each other. -/
theorem walk_join_congr {c' : Color} {s' : ColoredTree β α} (left : t'.walk = t.walk)
    (right : s'.walk = s.walk) :
    (join d c' x t' s').walk = (join d c x t s).walk := by
  cases d <;> simp [walk_join, left, right]

/-- A tree that is not a leaf, seen from one side. -/
theorem exists_join (d : Side) (node : ∀ mark, t ≠ leaf mark) : ∃ c x l r, t = join d c x l r := by
  cases t with
  | leaf mark => exact absurd rfl (node mark)
  | node c l x r =>
      cases d
      · exact ⟨c, x, l, r, rfl⟩
      · exact ⟨c, x, r, l, rfl⟩

/-- A red tree is a node. -/
theorem exists_join_red (d : Side) (red : t.color = .red) : ∃ x l r, t = join d .red x l r := by
  obtain ⟨c, x, l, r, rfl⟩ := exists_join (t := t) d fun mark leaf => by rw [leaf] at red; cases red
  rw [color_join] at red
  exact ⟨x, l, r, by rw [red]⟩

/-- A black tree of some height is a node over trees of the height below. -/
theorem Balanced.exists_join_black (d : Side) (balanced : t.Balanced (n + 1)) (black : t.color = .black) :
    ∃ x l r, t = join d .black x l r ∧ l.Balanced n ∧ r.Balanced n := by
  obtain ⟨c, x, l, r, rfl⟩ := exists_join (t := t) d fun mark leaf => by rw [leaf] at balanced; cases balanced
  rw [color_join] at black
  rw [black, balanced_join_black] at balanced
  exact ⟨x, l, r, by rw [black], balanced⟩

@[simp] theorem color_blacken : t.blacken.color = .black := by cases t <;> rfl

theorem blacken_of_black (black : t.color = .black) : t.blacken = t := by
  cases t with
  | leaf mark => rfl
  | node c l x r =>
      cases black
      rfl

theorem color_eq_black (notRed : t.color ≠ .red) : t.color = .black := by
  cases same : t.color
  · exact absurd same notRed
  · rfl

/-- Painting the root black adds a black node to a red root. -/
theorem Balanced.blacken (balanced : t.Balanced n) :
    t.blacken.Balanced (if t.color = .red then n + 1 else n) := by
  cases balanced with
  | leaf mark => exact .leaf mark
  | red left right => exact .black left right
  | black left right => exact .black left right

section Places

/-! ## Places -/

@[simp] theorem fill_mk : (Frame.mk d c x s).fill t = join d c x t s := rfl

@[simp] theorem guarded_cons (f : Frame β α) (ctx : List (Frame β α)) : Guarded (f :: ctx) ↔ f.color = .black :=
  Iff.rfl

@[simp] theorem accepts_cons_red :
    Accepts (⟨d, .red, x, s⟩ :: ctx) n ↔
      s.Balanced n ∧ s.color = .black ∧ Guarded ctx ∧ Accepts ctx n := Iff.rfl

@[simp] theorem accepts_cons_black :
    Accepts (⟨d, .black, x, s⟩ :: ctx) n ↔ s.Balanced n ∧ Accepts ctx (n + 1) := Iff.rfl

/-- A tree fits in its place. -/
def Fits (ctx : List (Frame β α)) (t : ColoredTree β α) : Prop :=
  ∃ n, t.Balanced n ∧ Accepts ctx n ∧ (t.color = .red → Guarded ctx)

/-- One step up or down changes nothing. -/
theorem fits_cons (f : Frame β α) : Fits (f :: ctx) t ↔ Fits ctx (f.fill t) := by
  obtain ⟨d, c, x, s⟩ := f
  unfold Fits
  cases c with
  | red =>
      simp only [fill_mk, accepts_cons_red, guarded_cons, balanced_join_red, color_join]
      constructor
      · rintro ⟨n, balanced, ⟨sibling, black, guarded, accepts⟩, notRed⟩
        have tBlack : t.color = .black := color_eq_black fun red => absurd (notRed red) (by decide)
        exact ⟨n, ⟨⟨balanced, sibling⟩, tBlack, black⟩, accepts, fun _ => guarded⟩
      · rintro ⟨n, ⟨⟨balanced, sibling⟩, tBlack, black⟩, accepts, guarded⟩
        exact ⟨n, balanced, ⟨sibling, black, guarded trivial, accepts⟩,
          fun red => by rw [tBlack] at red; cases red⟩
  | black =>
      simp only [fill_mk, accepts_cons_black, guarded_cons, color_join]
      constructor
      · rintro ⟨n, balanced, ⟨sibling, accepts⟩, -⟩
        exact ⟨n + 1, (balanced_join_black d x t s n).mpr ⟨balanced, sibling⟩, accepts, fun red => by cases red⟩
      · rintro ⟨n, balanced, accepts, -⟩
        cases n with
        | zero => cases d <;> cases balanced
        | succ n =>
            obtain ⟨left, right⟩ := (balanced_join_black d x t s n).mp balanced
            exact ⟨n, left, ⟨right, accepts⟩, fun _ => trivial⟩

/-- The whole tree is red-black exactly if each of its subtrees fits in its place. -/
theorem redBlack_plug (ctx : List (Frame β α)) : RedBlack (plug ctx t) ↔ Fits ctx t := by
  induction ctx generalizing t with
  | nil =>
      constructor
      · rintro ⟨black, n, balanced⟩
        exact ⟨n, balanced, trivial, fun red => by rw [plug, red] at black; cases black⟩
      · rintro ⟨n, balanced, -, notRed⟩
        exact ⟨color_eq_black notRed, n, balanced⟩
  | cons f ctx ih => exact ih.trans (fits_cons f).symm

/-- What is to the left of a place. -/
def before : List (Frame β α) → List (β ⊕ α)
  | [] => []
  | f :: ctx => before ctx ++ if f.side = .right then f.sibling.walk ++ [.inr f.item] else []

/-- What is to the right of a place. -/
def behind : List (Frame β α) → List (β ⊕ α)
  | [] => []
  | f :: ctx => (if f.side = .left then .inr f.item :: f.sibling.walk else []) ++ behind ctx

theorem walk_plug (ctx : List (Frame β α)) (t : ColoredTree β α) :
    (plug ctx t).walk = before ctx ++ t.walk ++ behind ctx := by
  induction ctx generalizing t with
  | nil => simp [plug, before, behind]
  | cons f ctx ih =>
      obtain ⟨d, c, x, s⟩ := f
      rw [plug, ih, fill_mk, walk_join]
      cases d <;> simp [before, behind]

/-- Trees with the same walk can stand for each other. -/
theorem walk_plug_congr (ctx : List (Frame β α)) (same : t.walk = t'.walk) : (plug ctx t).walk =
    (plug ctx t').walk := by
  rw [walk_plug, walk_plug, same]

theorem plug_append (inner ctx : List (Frame β α)) (t : ColoredTree β α) :
    plug (inner ++ ctx) t = plug ctx (plug inner t) := by
  induction inner generalizing t with
  | nil => rfl
  | cons f inner ih => exact ih (f.fill t)

theorem length_items (t : ColoredTree β α) : (items t.walk).length = t.count := by
  induction t with
  | leaf mark => rfl
  | node c l x r ihl ihr =>
      rw [walk, items_append, items_cons_inr, List.length_append, List.length_cons, ihl, ihr]
      rfl

theorem count_plug_eq (ctx : List (Frame β α)) (t : ColoredTree β α) :
    (plug ctx t).count = (items (before ctx)).length + t.count + (items (behind ctx)).length := by
  rw [← length_items, walk_plug, items_append, items_append, List.length_append, List.length_append,
    length_items]

theorem count_eq_of_walk (same : t.walk = t'.walk) : t.count = t'.count := by
  rw [← length_items, same, length_items]

/-- Nothing is beside a place on the way along one side. -/
theorem before_eq_nil {ctx : List (Frame β α)} (leftmost : ∀ f ∈ ctx, f.side = .left) : before ctx = [] := by
  induction ctx with
  | nil => rfl
  | cons f ctx ih =>
      rw [before, leftmost f List.mem_cons_self, ih fun g member => leftmost g (List.mem_cons_of_mem f member)]
      rfl

@[inherit_doc before_eq_nil]
theorem behind_eq_nil {ctx : List (Frame β α)} (rightmost : ∀ f ∈ ctx, f.side = .right) : behind ctx = [] := by
  induction ctx with
  | nil => rfl
  | cons f ctx ih =>
      rw [behind, rightmost f List.mem_cons_self,
        ih fun g member => rightmost g (List.mem_cons_of_mem f member)]
      rfl

theorem count_plug (ctx : List (Frame β α)) (t : ColoredTree β α) : ctx.length + t.count ≤
    (plug ctx t).count := by
  induction ctx generalizing t with
  | nil => simp [plug]
  | cons f ctx ih =>
      have more : t.count + 1 ≤ (f.fill t).count := by
        unfold Frame.fill
        rw [count_join]
        omega
      have := ih (f.fill t)
      rw [plug, List.length_cons]
      omega

/-- Each mark is in a leaf. -/
theorem exists_plug_leaf {mark : β} (inside : .inl mark ∈ t.walk) : ∃ ctx, t = plug ctx (leaf mark) := by
  induction t with
  | leaf mark' =>
      rw [walk, List.mem_singleton, Sum.inl.injEq] at inside
      exact ⟨[], by rw [inside]; rfl⟩
  | node c l x r ihl ihr =>
      rw [walk, List.mem_append, List.mem_cons] at inside
      rcases inside with left | same | right
      · obtain ⟨ctx, parts⟩ := ihl left
        exact ⟨ctx ++ [⟨.left, c, x, r⟩], by rw [plug_append, ← parts]; rfl⟩
      · cases same
      · obtain ⟨ctx, parts⟩ := ihr right
        exact ⟨ctx ++ [⟨.right, c, x, l⟩], by rw [plug_append, ← parts]; rfl⟩

/-- Each item is in a node. -/
theorem exists_plug_node (inside : .inr x ∈ t.walk) : ∃ ctx c l r, t = plug ctx (node c l x r) := by
  induction t with
  | leaf mark =>
      rw [walk, List.mem_singleton] at inside
      cases inside
  | node c l y r ihl ihr =>
      rw [walk, List.mem_append, List.mem_cons] at inside
      rcases inside with left | same | right
      · obtain ⟨ctx, c', l', r', parts⟩ := ihl left
        exact ⟨ctx ++ [⟨.left, c, y, r⟩], c', l', r', by rw [plug_append, ← parts]; rfl⟩
      · cases same
        exact ⟨[], c, l, r, rfl⟩
      · obtain ⟨ctx, c', l', r', parts⟩ := ihr right
        exact ⟨ctx ++ [⟨.right, c, y, l⟩], c', l', r', by rw [plug_append, ← parts]; rfl⟩

/-- What holds along the walk holds around each node. -/
theorem pairwise_node {before : α → α → Prop} {l r : ColoredTree β α}
    (pairwise : (items (plug ctx (node c l x r)).walk).Pairwise before) :
    (∀ y, .inr y ∈ l.walk → before y x) ∧ ∀ y, .inr y ∈ r.walk → before x y := by
  rw [walk_plug, walk, List.append_assoc, items_append, items_append, items_append, items_cons_inr] at pairwise
  obtain ⟨inside, -, -⟩ := List.pairwise_append.mp (List.pairwise_append.mp pairwise).2.1
  obtain ⟨-, right, left⟩ := List.pairwise_append.mp inside
  refine ⟨fun y member => left y (mem_items.mpr member) x List.mem_cons_self, fun y member => ?_⟩
  exact (List.pairwise_cons.mp right).1 y (mem_items.mpr member)

/-- A leaf whose mark is found nowhere else can be replaced. -/
theorem walk_plug_leaf {ctx' : List (Frame β α)} {mark : β}
    (same : (plug ctx (leaf mark)).walk = (plug ctx' (leaf mark)).walk)
    (left : .inl mark ∉ before ctx) (right : .inl mark ∉ behind ctx) (mark' : β) :
    (plug ctx (leaf mark')).walk = (plug ctx' (leaf mark')).walk := by
  have split (ctx : List (Frame β α)) (mark : β) :
      (plug ctx (leaf mark)).walk = before ctx ++ .inl mark :: behind ctx := by
    rw [walk_plug, walk]
    simp
  rw [split, split] at same
  obtain ⟨before_eq, -, behind_eq⟩ := (List.append_cons_inj_of_notMem left right).mp same
  rw [split, split, before_eq, behind_eq]

/-- A leaf is balanced whatever its mark. -/
theorem redBlack_plug_leaf {mark mark' : β} (redBlack : RedBlack (plug ctx (leaf mark))) :
    RedBlack (plug ctx (leaf mark')) := by
  rw [redBlack_plug] at *
  obtain ⟨n, balanced, accepts, -⟩ := redBlack
  cases balanced
  exact ⟨0, .leaf mark', accepts, fun red => by cases red⟩

end Places

section Insertion

/-! ## A red node too many -/

variable {p g y z : α} {u a b : ColoredTree β α}

/-- A red tree that would fit in its place if the node above it were black. -/
def RedFits (ctx : List (Frame β α)) (t : ColoredTree β α) : Prop :=
  t.color = .red ∧ ∃ n, t.Balanced n ∧ Accepts ctx n

/-- At the root it is painted black. -/
theorem RedFits.root (fits : RedFits [] t) : RedBlack t.blacken := by
  obtain ⟨-, n, balanced, -⟩ := fits
  exact ⟨color_blacken, _, balanced.blacken⟩

/-- Below a black node it fits. -/
theorem RedFits.guarded (fits : RedFits ctx t) (guarded : Guarded ctx) : Fits ctx t := by
  obtain ⟨-, n, balanced, accepts⟩ := fits
  exact ⟨n, balanced, accepts, fun _ => guarded⟩

/-- Above a red node there is a black one. -/
theorem RedFits.above (fits : RedFits (⟨d, .red, p, s⟩ :: ctx) t) :
    ∃ e g u rest, ctx = ⟨e, .black, g, u⟩ :: rest := by
  obtain ⟨-, n, -, -, -, guarded, -⟩ := fits
  cases ctx with
  | nil => exact guarded.elim
  | cons f rest =>
      obtain ⟨e, c, g, u⟩ := f
      obtain rfl : c = .black := guarded
      exact ⟨e, g, u, rest, rfl⟩

/-- Below two red nodes the red goes two steps up. -/
theorem RedFits.recolor {e : Side} (fits : RedFits (⟨d, .red, p, s⟩ :: ⟨e, .black, g, u⟩ :: ctx) t)
    (red : u.color = .red) : RedFits ctx (join e .red g (join d .black p t s) u.blacken) := by
  obtain ⟨-, n, balanced, sibling, -, -, uncle, accepts⟩ := fits
  have uncle' := uncle.blacken
  rw [if_pos red] at uncle'
  refine ⟨color_join .., n + 1, ?_, accepts⟩
  rw [balanced_join_red, balanced_join_black, color_blacken, color_join]
  exact ⟨⟨⟨balanced, sibling⟩, uncle'⟩, rfl, rfl⟩

/-- One rotation, when both lie on the same side. -/
theorem RedFits.outer (fits : RedFits (⟨d, .red, p, s⟩ :: ⟨d, .black, g, u⟩ :: ctx) t)
    (black : u.color = .black) :
    Fits ctx (join d .black p t (join d .red g s u)) := by
  obtain ⟨-, n, balanced, sibling, sBlack, -, uncle, accepts⟩ := fits
  refine ⟨n + 1, ?_, accepts, fun red => by rw [color_join] at red; cases red⟩
  rw [balanced_join_black, balanced_join_red]
  exact ⟨balanced, ⟨sibling, uncle⟩, sBlack, black⟩

/-- A first rotation brings both to the same side. -/
theorem RedFits.inner (fits : RedFits (⟨d.other, .red, p, s⟩ :: ⟨d, .black, g, u⟩ :: ctx) (join d .red x a b)) :
    RedFits (⟨d, .red, x, b⟩ :: ⟨d, .black, g, u⟩ :: ctx) (join d .red p s a) := by
  obtain ⟨-, n, balanced, sibling, sBlack, -, uncle, accepts⟩ := fits
  rw [balanced_join_red] at balanced
  obtain ⟨⟨left, right⟩, leftBlack, rightBlack⟩ := balanced
  refine ⟨color_join .., n, ?_, right, rightBlack, rfl, uncle, accepts⟩
  rw [balanced_join_red]
  exact ⟨⟨sibling, left⟩, sBlack, leftBlack⟩

end Insertion

section Removal

/-! ## A black node too few -/

variable {p y z : α} {w a b : ColoredTree β α}

/-- A tree that fits in its place with one more black node, which a red root can be. -/
def Short (ctx : List (Frame β α)) (t : ColoredTree β α) : Prop :=
  ∃ n, Accepts ctx (n + 1) ∧ if t.color = .red then t.blacken.Balanced (n + 1) else t.Balanced n

/-- At the root nothing is missing. -/
theorem Short.root (short : Short [] t) : Fits [] t.blacken := by
  obtain ⟨n, -, balanced⟩ := short
  split at balanced
  · exact ⟨n + 1, balanced, trivial, fun red => by rw [color_blacken] at red; cases red⟩
  · rename_i notRed
    have balanced' := balanced.blacken
    rw [if_neg notRed] at balanced'
    exact ⟨n, balanced', trivial, fun red => by rw [color_blacken] at red; cases red⟩

/-- A red root is painted black. -/
theorem Short.red (short : Short ctx t) (red : t.color = .red) : Fits ctx t.blacken := by
  obtain ⟨n, accepts, balanced⟩ := short
  rw [if_pos red] at balanced
  exact ⟨n + 1, balanced, accepts, fun red => by rw [color_blacken] at red; cases red⟩

/-- A leaf stays short whatever its mark. -/
theorem Short.leaf {mark : β} (short : Short ctx (leaf mark)) (mark' : β) : Short ctx
    (ColoredTree.leaf mark') := by
  obtain ⟨n, accepts, balanced⟩ := short
  rw [if_neg fun red => by cases red] at balanced
  cases balanced
  exact ⟨0, accepts, .leaf mark'⟩

/-- The tree on the other side is a node. -/
theorem Short.sibling (short : Short (⟨d, c, p, w⟩ :: ctx) t) :
    ∃ c' y a b, w = join d c' y a b := by
  refine exists_join d fun mark leaf => ?_
  obtain ⟨n, ⟨balanced, -⟩, -⟩ := short
  rw [leaf] at balanced
  cases balanced

/-- Beside a red node, a rotation puts a black one there. -/
theorem Short.redSibling (short : Short (⟨d, c, p, join d .red y a b⟩ :: ctx) t) :
    c = .black ∧ (∃ z a' b', a = join d .black z a' b') ∧
      Short (⟨d, .red, p, a⟩ :: ⟨d, .black, y, b⟩ :: ctx) t := by
  obtain ⟨n, ⟨sibling, accepts⟩, balanced⟩ := short
  rw [balanced_join_red] at sibling
  obtain ⟨⟨left, right⟩, leftBlack, rightBlack⟩ := sibling
  cases c with
  | red => rw [color_join] at accepts; cases accepts.1
  | black =>
      refine ⟨rfl, ?_, n, ⟨left, leftBlack, rfl, right, accepts⟩, balanced⟩
      obtain ⟨z, a', b', parts, -⟩ := left.exists_join_black d leftBlack
      exact ⟨z, a', b', parts⟩

/-- Beside a black node with black children, the sibling turns red and the gap goes up. -/
theorem Short.up (short : Short (⟨d, c, p, join d .black y a b⟩ :: ctx) t) (black : t.color = .black)
    (aBlack : a.color = .black) (bBlack : b.color = .black) :
    Short ctx (join d c p t (join d .red y a b)) := by
  obtain ⟨n, ⟨sibling, accepts⟩, balanced⟩ := short
  rw [balanced_join_black] at sibling
  rw [if_neg (by rw [black]; decide)] at balanced
  have sibling' : (join d .red y a b).Balanced n := (balanced_join_red ..).mpr ⟨sibling, aBlack, bBlack⟩
  cases c with
  | red =>
      refine ⟨n, accepts.2.2, ?_⟩
      rw [if_pos (color_join ..), blacken_join, balanced_join_black]
      exact ⟨balanced, sibling'⟩
  | black =>
      refine ⟨n + 1, accepts, ?_⟩
      rw [if_neg (by rw [color_join]; decide), balanced_join_black]
      exact ⟨balanced, sibling'⟩

/-- A first rotation makes the far child of the sibling red. -/
theorem Short.far (short : Short (⟨d, c, p, join d .black y (join d .red z a b) s⟩ :: ctx) t)
    (black : s.color = .black) : Short (⟨d, c, p, join d .black z a (join d .red y b s)⟩ :: ctx) t := by
  obtain ⟨n, ⟨sibling, accepts⟩, balanced⟩ := short
  rw [balanced_join_black, balanced_join_red] at sibling
  obtain ⟨⟨⟨left, right⟩, leftBlack, rightBlack⟩, other⟩ := sibling
  refine ⟨n, ⟨?_, ?_⟩, balanced⟩
  · rw [balanced_join_black, balanced_join_red]
    exact ⟨left, ⟨right, other⟩, rightBlack, black⟩
  · simpa using accepts

/-- With a red far child, a rotation fills the gap. -/
theorem Short.fill (short : Short (⟨d, c, p, join d .black y a b⟩ :: ctx) t) (black : t.color = .black)
    (red : b.color = .red) : Fits ctx (join d c y (join d .black p t a) b.blacken) := by
  obtain ⟨n, ⟨sibling, accepts⟩, balanced⟩ := short
  rw [balanced_join_black] at sibling
  rw [if_neg (by rw [black]; decide)] at balanced
  have far := sibling.2.blacken
  rw [if_pos red] at far
  cases c with
  | red =>
      refine ⟨n + 1, ?_, accepts.2.2, fun _ => accepts.2.1⟩
      rw [balanced_join_red, balanced_join_black, color_blacken, color_join]
      exact ⟨⟨⟨balanced, sibling.1⟩, far⟩, rfl, rfl⟩
  | black =>
      refine ⟨n + 2, ?_, accepts, fun red => by rw [color_join] at red; cases red⟩
      rw [balanced_join_black, balanced_join_black]
      exact ⟨⟨balanced, sibling.1⟩, far⟩

/-- A red node can be replaced by one of its children. -/
theorem Fits.of_red (fits : Fits ctx (join d .red x t s)) : Fits ctx t := by
  obtain ⟨n, balanced, accepts, -⟩ := fits
  rw [balanced_join_red] at balanced
  exact ⟨n, balanced.1.1, accepts, fun red => by rw [balanced.2.1] at red; cases red⟩

/-- A black node with one leaf can be replaced by its other child, with a black node too few. -/
theorem Fits.short {mark : β} (fits : Fits ctx (join d .black x t (ColoredTree.leaf mark))) : Short ctx t := by
  obtain ⟨n, balanced, accepts, -⟩ := fits
  cases n with
  | zero => cases d <;> cases balanced
  | succ n =>
      rw [balanced_join_black] at balanced
      refine ⟨n, accepts, ?_⟩
      split
      · rename_i red
        have painted := balanced.1.blacken
        rwa [if_pos red] at painted
      · exact balanced.1

/-- Whether a tree fits does not depend on the items. -/
theorem accepts_item {y : α} (inner : List (Frame β α)) {n : Nat} :
    Accepts (inner ++ ⟨d, c, x, s⟩ :: ctx) n ↔ Accepts (inner ++ ⟨d, c, y, s⟩ :: ctx) n := by
  induction inner generalizing n with
  | nil => cases c <;> rfl
  | cons f inner ih =>
      obtain ⟨e, c', z, u⟩ := f
      cases c' with
      | red =>
          have guarded : Guarded (inner ++ ⟨d, c, x, s⟩ :: ctx) ↔ Guarded (inner ++ ⟨d, c, y, s⟩ :: ctx) := by
            cases inner <;> rfl
          rw [List.cons_append, List.cons_append, accepts_cons_red, accepts_cons_red, guarded, ih]
      | black => rw [List.cons_append, List.cons_append, accepts_cons_black, accepts_cons_black, ih]

@[inherit_doc accepts_item]
theorem fits_item {y : α} (inner : List (Frame β α)) :
    Fits (inner ++ ⟨d, c, x, s⟩ :: ctx) t ↔ Fits (inner ++ ⟨d, c, y, s⟩ :: ctx) t := by
  have guarded : Guarded (inner ++ ⟨d, c, x, s⟩ :: ctx) ↔ Guarded (inner ++ ⟨d, c, y, s⟩ :: ctx) := by
    cases inner <;> rfl
  simp only [Fits, accepts_item (y := y) inner, guarded]

end Removal

section Search

/-! ## Search trees -/

variable {κ : Type w} [LinearOrder κ] (key : α → κ) (k : κ)

/-- The keys increase from left to right. -/
def Ordered (walk : List (β ⊕ α)) : Prop := (items walk).Pairwise fun x y => key x < key y

/-- The items to the left of a place are smaller than `k`, and those to the right are larger. -/
structure Splits (ctx : List (Frame β α)) : Prop where
  before : ∀ x, .inr x ∈ before ctx → key x < k
  behind : ∀ x, .inr x ∈ behind ctx → k < key x

/-- The way down from a place to the node with key `k`, or to the leaf where it belongs. -/
def locate : ColoredTree β α → List (Frame β α) → List (Frame β α) × ColoredTree β α
  | leaf mark, ctx => (ctx, leaf mark)
  | node c l x r, ctx =>
      if k = key x then (ctx, node c l x r)
      else if k < key x then locate l (⟨.left, c, x, r⟩ :: ctx)
      else locate r (⟨.right, c, x, l⟩ :: ctx)

variable {key k}

/-- Nothing is beside the root. -/
theorem splits_nil (k : κ) : Splits key k ([] : List (Frame β α)) :=
  ⟨fun _ none => (List.not_mem_nil none).elim, fun _ none => (List.not_mem_nil none).elim⟩

theorem plug_locate (t : ColoredTree β α) (ctx : List (Frame β α)) :
    plug (locate key k t ctx).1 (locate key k t ctx).2 = plug ctx t := by
  induction t generalizing ctx with
  | leaf mark => rfl
  | node c l x r ihl ihr =>
      unfold locate
      split
      · rfl
      · split
        · exact ihl _
        · exact ihr _

/-- The node that is found has the key. -/
theorem key_of_locate (t : ColoredTree β α) (ctx : List (Frame β α)) {c : Color} {l r : ColoredTree β α}
    (found : (locate key k t ctx).2 = node c l x r) : key x = k := by
  induction t generalizing ctx with
  | leaf mark => cases found
  | node c' l' y r' ihl ihr =>
      unfold locate at found
      split at found
      · rename_i same
        cases found
        exact same.symm
      · split at found
        · exact ihl _ found
        · exact ihr _ found

theorem Ordered.of_append {w₁ w₂ : List (β ⊕ α)} (ordered : Ordered key (w₁ ++ w₂)) {x y : α}
    (left : .inr x ∈ w₁)
    (right : .inr y ∈ w₂) : key x < key y := by
  unfold Ordered at ordered
  rw [items_append, List.pairwise_append] at ordered
  exact ordered.2.2 x (mem_items.mpr left) y (mem_items.mpr right)

/-- The place that is found splits the items. -/
theorem splits_locate (t : ColoredTree β α) {ctx : List (Frame β α)} (ordered : Ordered key (plug ctx t).walk)
    (splits : Splits key k ctx) : Splits key k (locate key k t ctx).1 := by
  induction t generalizing ctx with
  | leaf mark => exact splits
  | node c l x r ihl ihr =>
      have walk : (plug ctx (node c l x r)).walk = before ctx ++ (l.walk ++ .inr x :: r.walk) ++ behind ctx :=
        walk_plug ctx _
      have inWalk := ordered
      rw [walk] at inWalk
      unfold locate
      split
      · exact splits
      · rename_i different
        split
        · rename_i less
          refine ihl (by exact ordered) ⟨fun y member => splits.before y (by simpa [before] using member), ?_⟩
          intro y member
          simp only [behind, if_pos, List.cons_append, List.mem_cons, List.mem_append, Sum.inr.injEq] at member
          rcases member with rfl | inside | outside
          · exact less
          · refine less.trans ((show Ordered key ((before ctx ++ l.walk ++ [.inr x]) ++ (r.walk ++ behind ctx)) by
              simpa using inWalk).of_append ?_ (List.mem_append_left _ inside))
            exact List.mem_append_right _ (List.mem_singleton_self _)
          · exact splits.behind y outside
        · rename_i notLess
          have greater : key x < k := lt_of_le_of_ne (not_lt.mp notLess) (Ne.symm different)
          refine ihr (by exact ordered) ⟨?_, fun y member => splits.behind y (by simpa [behind] using member)⟩
          intro y member
          simp only [before, if_pos, List.mem_append, List.mem_singleton, Sum.inr.injEq] at member
          rcases member with outside | inside | rfl
          · exact splits.before y outside
          · refine ((show Ordered key ((before ctx ++ l.walk) ++ (.inr x :: (r.walk ++ behind ctx))) by
              simpa using inWalk).of_append (List.mem_append_right _ inside) List.mem_cons_self).trans greater
          · exact greater

/-- A new item comes to the leaf where it belongs. -/
theorem Ordered.insert {mark mark₁ mark₂ : β} (ordered : Ordered key (plug ctx (leaf mark)).walk)
    (splits : Splits key (key x) ctx) : Ordered key (plug ctx (node c (leaf mark₁) x (leaf mark₂))).walk := by
  unfold Ordered at *
  rw [walk_plug] at *
  simp only [walk, List.cons_append, List.nil_append, List.append_assoc, items_append, items_cons_inl,
    items_cons_inr] at *
  obtain ⟨left, right, apart⟩ := List.pairwise_append.mp ordered
  refine List.pairwise_append.mpr ⟨left, List.pairwise_cons.mpr ⟨fun y member => ?_, right⟩, ?_⟩
  · exact splits.behind y (mem_items.mp member)
  · intro y member z member'
    rcases List.mem_cons.mp member' with rfl | outside
    · exact splits.before y (mem_items.mp member)
    · exact apart y member z outside

/-- No item has the key when the search ends at a leaf. -/
theorem not_mem_of_locate (t : ColoredTree β α) {mark : β} (ordered : Ordered key t.walk)
    (absent : (locate key k t []).2 = leaf mark) : ∀ x, .inr x ∈ t.walk → key x ≠ k := by
  have splits := @splits_locate _ _ _ _ key k t [] ordered (splits_nil k)
  have whole := @plug_locate _ _ _ _ key k t []
  rw [absent, plug] at whole
  intro x member
  rw [← whole, walk_plug, List.mem_append, List.mem_append, walk, List.mem_singleton] at member
  rcases member with (left | leaf) | right
  · exact (splits.before x left).ne
  · cases leaf
  · exact (splits.behind x right).ne'

end Search

end ColoredTree

end Riscv2os.Std
