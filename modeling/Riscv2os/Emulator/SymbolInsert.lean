import Riscv2os.Emulator.SymbolSearch

/-!
# Insertion into the symbol map

`c_map_fix_colors` makes a red-black tree of one in which a red node may be below another, without moving an
item.
-/

namespace Riscv2os.Emulator

open Riscv2os.Std
open Riscv2os.Std.ColoredTree
open MapTree

variable {K V : Type} {m : CMap K V} {ctx : MapPlace K V} {c c' : Color}
  {x y p g : MapItem K V} {t s u a b : MapTree K V} {rest : Multiset (Address × MapNode K V)}

/-- A new node. -/
def single (new : MapItem K V) : MapTree K V := join .left .red new (.leaf 0) (.leaf 0)

/-- A new node fits at the place of a leaf but for its colour. -/
theorem redFits_single (fits : Fits ctx (.leaf (0 : Address))) (new : MapItem K V) :
    RedFits ctx (single new) := by
  obtain ⟨n, balanced, accepts, -⟩ := fits
  cases balanced
  exact ⟨rfl, 0, (balanced_join_red ..).mpr ⟨⟨.leaf 0, .leaf 0⟩, rfl, rfl⟩, accepts⟩

theorem nulls_single (ctx : MapPlace K V) {a : Address} (nulls : Nulls (plug ctx (.leaf a)).walk)
    (new : MapItem K V) :
    Nulls (plug ctx (single new)).walk := by
  intro b member
  rw [walk_plug] at member
  by_cases inside : .inl b ∈ (single new).walk
  · simpa [single, walk_join, walk] using inside
  · refine nulls b ?_
    rw [walk_plug]
    simp only [List.mem_append] at member ⊢
    exact Or.imp_left (fun either => .inl (either.resolve_right inside)) member

theorem items_single (a : Address) (new : MapItem K V) :
    items (plug ctx (single new)).walk = items (before ctx) ++ new :: items (behind ctx) ∧
      items (plug ctx (.leaf a : MapTree K V)).walk = items (before ctx) ++ items (behind ctx) := by
  rw [walk_plug, walk_plug]
  simp [single, walk_join, walk]

variable [Inhabited K] [Inhabited V]

/-- The map is a red-black tree with this walk. -/
def IsRedBlack (walk : List (Address ⊕ MapItem K V)) (rest : Multiset (Address × MapNode K V)) (m : CMap K V) :
    Prop :=
  ∃ t, Represents m [] t rest ∧ RedBlack t ∧ t.walk = walk

/-- A subtree that fits in its place makes the whole tree red-black. -/
theorem Represents.isRedBlack (tree : Represents m ctx t rest) (fits : Fits ctx t) :
    IsRedBlack (plug ctx t).walk rest m :=
  ⟨plug ctx t, (represents_plug ctx t).mpr tree, (redBlack_plug ctx).mpr fits, rfl⟩

/-- From one child to the other. -/
theorem represents_turn (d : Side) :
    Represents m (⟨d, c, x, s⟩ :: ctx) t rest ↔ Represents m (⟨d.other, c, x, t⟩ :: ctx) s rest := by
  rw [represents_cons, represents_cons, fill_mk, fill_mk, join_other]

/-- A node below another one is not the root. -/
theorem Represents.head_ne {f : Frame Address (MapItem K V)} {d : Side}
    (tree : Represents m (f :: ctx) (join d c x t s) rest) : x.addr ≠ m.head := by
  obtain ⟨holds, head⟩ := tree
  rw [cells_join, addr_join] at holds
  rw [head, addr_join]
  exact (rootOf_ne f x.addr (holds.reorder (placeCells (f :: ctx) x.addr +
    ({(x.addr, .of d c x (addr t) (addr s) (above (f :: ctx)))} +
      (cells x.addr t + cells x.addr s + rest))) (by abel))).symm

/-- The other child of the node above is another node. -/
theorem Represents.sibling_ne {d e : Side} (tree : Represents m (⟨e, c', g, u⟩ :: ctx) (join d c x t s) rest) :
    addr u ≠ x.addr := by
  have holds := tree.holds
  rw [cells_join, placeCells, addr_join] at holds
  exact addr_ne (b := g.addr) (n := .of d c x (addr t) (addr s) g.addr) (holds.reorder (cells g.addr u +
    ({(x.addr, .of d c x (addr t) (addr s) g.addr)} + (cells x.addr t + cells x.addr s +
      ({(g.addr, .of e c' g x.addr (addr u) (above ctx))} + (placeCells ctx g.addr + rest))))) (by rw [above]; abel))

/-- `c_map_l_l`, `c_map_r_r`. -/
theorem outer_does (d : Side)
    (tree : Represents m (⟨d, .red, p, s⟩ :: ⟨d, .black, g, u⟩ :: ctx) t rest) :
    Does (CMap.outer d g.addr) m () fun m' =>
      Represents m' ctx (join d .black p t (join d .red g s u)) rest := by
  rw [represents_cons, represents_cons, fill_mk, fill_mk, ← join_other, ← join_other d] at tree
  unfold CMap.outer
  refine (rotate_does d.other tree).bind fun m₁ tree₁ => ?_
  rw [join_other, join_other] at tree₁
  refine .loadNode tree₁ ?_
  simp only [MapNode.child_other_of, addr_join, MapNode.color_of]
  refine .loadNode ((represents_turn d).mp ((represents_cons ⟨d, _, p, _⟩).mpr tree₁)) ?_
  simp only [MapNode.color_of]
  refine (paint_does .black tree₁).bind fun m₂ tree₂ => ?_
  refine (paint_does .red ((represents_turn d).mp ((represents_cons ⟨d, _, p, _⟩).mpr tree₂))).mono
    fun m₃ tree₃ => ?_
  exact (represents_cons _).mp ((represents_turn d).mpr tree₃)

/-- `c_map_l_r`, `c_map_r_l`. -/
theorem inner_does (d : Side)
    (tree : Represents m (⟨d.other, .red, p, s⟩ :: ⟨d, .black, g, u⟩ :: ctx) (join d .red x a b) rest) :
    Does (CMap.inner d p.addr) m () fun m' =>
      Represents m' ctx (join d .black x (join d .red p s a) (join d .red g b u)) rest := by
  rw [represents_cons, fill_mk, join_other] at tree
  unfold CMap.inner
  refine (rotate_does d tree).bind fun m₁ tree₁ => ?_
  refine .loadNode tree₁ ?_
  simp only [MapNode.up_of, above]
  refine .loadAbove tree₁ ?_
  exact outer_does d ((represents_cons ⟨d, .red, x, b⟩).mpr tree₁)

/-- A black root. -/
theorem fixColors_root {fuel : Nat} (tree : Represents m [] t rest) (fits : RedFits [] t) :
    Does (CMap.fixColors (fuel + 1) (addr t)) m () (IsRedBlack t.walk rest) := by
  obtain ⟨x, l, r, rfl⟩ := exists_join_red .left fits.1
  unfold CMap.fixColors
  refine Does.get ?_
  rw [tree.head, rootOf, if_pos rfl, addr_join]
  refine (paint_does .black tree).mono fun m' tree' => ⟨_, tree', ?_, rfl⟩
  have root := fits.root
  rwa [blacken_join] at root

/-- Below a black node nothing has to be done. -/
theorem fixColors_guarded {fuel : Nat} {d : Side} (tree : Represents m (⟨d, .black, p, s⟩ :: ctx) t rest)
    (fits : RedFits (⟨d, .black, p, s⟩ :: ctx) t) :
    Does (CMap.fixColors (fuel + 1) (addr t)) m ()
      (IsRedBlack (plug (⟨d, .black, p, s⟩ :: ctx) t).walk rest) := by
  have done := tree.isRedBlack (fits.guarded rfl)
  obtain ⟨x, l, r, rfl⟩ := exists_join_red .left fits.1
  unfold CMap.fixColors
  refine Does.get ?_
  rw [addr_join, if_neg tree.head_ne]
  refine .loadNode tree ?_
  simp only [MapNode.up_of, above]
  refine .loadAbove tree (Does.get ?_)
  simp only [MapNode.color_of, MapNode.up_of, true_and]
  cases ctx with
  | nil =>
      have root : m.head = p.addr := tree.head
      rw [root, if_neg (not_not.mpr rfl), above, if_pos rfl]
      exact .pure () done
  | cons f ctx =>
      have notRoot : p.addr ≠ m.head := ((represents_cons _).mp tree).head_ne
      rw [if_pos notRoot]
      exact .pure () done

/-- Below two red nodes the colours of three nodes change, and the grandparent is next. -/
theorem fixColors_red {fuel : Nat} {d e : Side}
    (tree : Represents m (⟨d, .red, p, s⟩ :: ⟨e, .black, g, u⟩ :: ctx) t rest) (red : t.color = .red)
    {post : CMap K V → Prop}
    (redUncle : u.color = .red → ∀ m', Represents m' ctx (join e .red g (join d .black p t s) u.blacken) rest →
      Does (CMap.fixColors fuel g.addr) m' () post)
    (same : u.color = .black → d = e → Does (CMap.outer d g.addr) m () post)
    (zigzag : u.color = .black → d = e.other → Does (CMap.inner e p.addr) m () post) :
    Does (CMap.fixColors (fuel + 1) (addr t)) m () post := by
  obtain ⟨x, l, r, rfl⟩ := exists_join_red .left red
  have uncle_ne : addr u ≠ p.addr := ((represents_cons _).mp tree).sibling_ne
  have sibling_ne : addr s ≠ x.addr := tree.sibling_ne
  have gNonzero : g.addr ≠ 0 := by
    obtain ⟨others, holds⟩ := ((represents_cons _).mp ((represents_cons _).mp tree)).node
    exact holds.ne_zero
  unfold CMap.fixColors
  refine Does.get ?_
  rw [addr_join, if_neg tree.head_ne]
  refine .loadNode tree ?_
  simp only [MapNode.up_of, above]
  refine .loadAbove tree (Does.get ?_)
  have notBlack : ¬ (Color.red = .black ∧ p.addr ≠ m.head) := fun both => by cases both.1
  simp only [MapNode.color_of, MapNode.up_of, above]
  rw [if_neg notBlack, if_neg gNonzero]
  refine .loadAbove ((represents_cons _).mp tree) ?_
  have uncle_eq : (if (MapNode.of e .black g p.addr (addr u) (above ctx)).left = p.addr then
      (MapNode.of e .black g p.addr (addr u) (above ctx)).right
      else (MapNode.of e .black g p.addr (addr u) (above ctx)).left) = addr u := by
    cases e
    · exact if_pos rfl
    · exact if_neg uncle_ne
  simp only [fill_mk, addr_join, uncle_eq]
  have atUncle := (represents_turn e).mp ((represents_cons _).mp tree)
  refine .reads (colorOf_ok atUncle) ?_
  by_cases uncleRed : u.color = .red
  · rw [if_pos uncleRed]
    obtain ⟨y, a, b, rfl⟩ := exists_join_red .left uncleRed
    rw [addr_join]
    refine (paint_does .black atUncle).bind fun m₁ tree₁ => ?_
    refine (paint_does .black ((represents_turn e).mpr tree₁)).bind fun m₂ tree₂ => ?_
    refine (paintAbove_does .red tree₂).bind fun m₃ tree₃ => ?_
    refine redUncle uncleRed m₃ ?_
    rw [blacken_join]
    exact (represents_cons _).mp tree₃
  · rw [if_neg uncleRed]
    have black := color_eq_black uncleRed
    cases e <;> cases d
    · rw [if_pos ⟨rfl, rfl⟩]
      exact same black rfl
    · rw [if_neg fun both => sibling_ne both.2.symm, if_pos ⟨rfl, rfl⟩]
      exact zigzag black rfl
    · rw [if_neg fun both => uncle_ne both.1.symm, if_neg fun both => uncle_ne both.1.symm, if_pos ⟨rfl, rfl⟩]
      exact zigzag black rfl
    · rw [if_neg fun both => uncle_ne both.1.symm, if_neg fun both => uncle_ne both.1.symm,
        if_neg fun both => sibling_ne both.2.symm, if_pos ⟨rfl, rfl⟩]
      exact same black rfl

/-- `c_map_fix_colors`: a map that is red-black, with the same items. -/
theorem fixColors_does {fuel : Nat} (tree : Represents m ctx t rest) (fits : RedFits ctx t)
    (enough : ctx.length < fuel) :
    Does (CMap.fixColors fuel (addr t)) m () (IsRedBlack (plug ctx t).walk rest) := by
  induction fuel generalizing ctx t m with
  | zero => exact absurd enough (Nat.not_lt_zero _)
  | succ fuel ih =>
      cases ctx with
      | nil => exact fixColors_root tree fits
      | cons f ctx =>
          obtain ⟨d, c, p, s⟩ := f
          cases c with
          | black => exact fixColors_guarded tree fits
          | red =>
              obtain ⟨e, g, u, ctx, rfl⟩ := fits.above
              refine fixColors_red tree fits.1 (fun red m' tree' => ?_) (fun black same => ?_)
                fun black other => ?_
              · -- the red goes up two steps
                have walk : (plug ctx (join e .red g (join d .black p t s) u.blacken)).walk =
                    (plug (⟨d, .red, p, s⟩ :: ⟨e, .black, g, u⟩ :: ctx) t).walk :=
                  walk_plug_congr ctx (walk_join_congr (walk_join_congr rfl rfl) walk_blacken)
                have next := ih tree' (fits.recolor red) (by simp only [List.length_cons] at enough; omega)
                rw [walk, addr_join] at next
                exact next
              · cases same
                have walk : (plug ctx (join d .black p t (join d .red g s u))).walk =
                    (plug (⟨d, .red, p, s⟩ :: ⟨d, .black, g, u⟩ :: ctx) t).walk := by
                  refine walk_plug_congr ctx ?_
                  cases d <;> simp [walk_join]
                rw [← walk]
                exact (outer_does d tree).mono fun m' tree' => tree'.isRedBlack (fits.outer black)
              · cases other
                obtain ⟨x, a, b, rfl⟩ := exists_join_red e fits.1
                have walk : (plug ctx (join e .black x (join e .red p s a) (join e .red g b u))).walk =
                    (plug (⟨e.other, .red, p, s⟩ :: ⟨e, .black, g, u⟩ :: ctx) (join e .red x a b)).walk := by
                  refine walk_plug_congr ctx ?_
                  cases e <;> simp [walk_join, Side.other]
                rw [← walk]
                exact (inner_does e tree).mono fun m' tree' => tree'.isRedBlack (fits.inner.outer black)

section Insert

/-! ## The insertion -/

variable {new : MapItem K V} {fuel rounds : Nat}

/-- The cell of a new node that is not in the tree yet. -/
def newCell (new : MapItem K V) : Multiset (Address × MapNode K V) := {(new.addr, .of .left .red new 0 0 0)}

/-- The new node is linked below `x`. -/
theorem attach_does (d : Side)
    (tree : Represents m ctx (join d c x (.leaf 0) s) (newCell new + rest)) {result : Bool}
    {post : CMap K V → Prop}
    {next : CMap.Op K V Bool}
    (then_ : ∀ m', Represents m' (⟨d, c, x, s⟩ :: ctx) (single new) rest → Does next m' result post) :
    Does (do
      CMap.store x.addr (MapNode.setChild d new.addr)
      CMap.store new.addr (MapNode.setUp x.addr)
      next) m result post := by
  obtain ⟨holds, head⟩ := tree
  rw [cells_join, cells_leaf_zero, zero_add, addr_join, addr_leaf, newCell, add_assoc] at holds
  refine (store_does holds _).bind fun m₁ ⟨cells₁, same₁⟩ => ?_
  rw [MapNode.setChild_of] at cells₁
  have cells₂ := cells₁.reorder ({(new.addr, .of .left .red new 0 0 0)} + ({(x.addr, .of d c x new.addr (addr s)
    (above ctx))} + (cells x.addr s + (placeCells ctx x.addr + rest)))) (by abel)
  refine (store_does cells₂ _).bind fun m₃ ⟨cells₃, same₃⟩ => ?_
  rw [MapNode.setUp_of] at cells₃
  refine then_ m₃ ⟨?_, ?_⟩
  · refine cells₃.of_eq ?_
    rw [single, cells_join, cells_leaf_zero, addr_join, addr_leaf, placeCells, above]
    abel
  · rw [same₃, same₁, head, addr_join]
    rfl

variable {κ : Type} [LinearOrder κ] {rank : K → κ} {comparator : K → K → Int}

/-- Whether the search ended at a leaf. -/
def isLeaf : MapTree K V → Bool
  | .leaf _ => true
  | .node .. => false

/-- What the insertion leaves: the tree with the new item at the place that was found, or the tree as it was. -/
def Inserted (new : MapItem K V) (whole : MapTree K V) (rest : Multiset (Address × MapNode K V))
    (place : MapPlace K V × MapTree K V) : CMap K V → Prop :=
  match place.2 with
  | .leaf _ => IsRedBlack (plug place.1 (single new)).walk rest
  | .node .. => fun m => Represents m [] whole rest

theorem insertFrom_does (rounds : Nat) (ranks : Ranks rank comparator)
    (tree : Represents m ctx t (newCell new + rest))
    (fits : Fits ctx t) (nulls : Nulls t.walk) (some : addr t ≠ 0) (enough : t.count < fuel)
    (enough' : ctx.length + t.count < rounds) :
    Does (CMap.insertFrom comparator rounds new.addr fuel (addr t)) m
      (isLeaf (locate (rank ∘ MapItem.key) (rank new.key) t ctx).2)
      (Inserted new (plug ctx t) rest (locate (rank ∘ MapItem.key) (rank new.key) t ctx)) := by
  induction fuel generalizing t ctx with
  | zero => exact absurd enough (Nat.not_lt_zero _)
  | succ fuel ih =>
      obtain ⟨c, x, l, r, rfl⟩ := nulls.exists_join .left some
      obtain ⟨nullsLeft, nullsRight⟩ := (nulls_join .left).mp nulls
      rw [count_join] at enough enough'
      have newHolds : HoldsCells m.heap (newCell new +
          (cells (above ctx) (join .left c x l r) + (placeCells ctx x.addr + rest))) := by
        refine tree.holds.of_eq ?_
        rw [addr_join]
        abel
      -- one step down
      have child (d : Side) (t' s : MapTree K V) (nulls' : Nulls t'.walk)
          (same : join .left c x l r = join d c x t' s)
          (fewer : t'.count < fuel) (fewer' : ctx.length + 1 + t'.count < rounds) :
          Does (if addr t' = 0 then do
              CMap.store x.addr (MapNode.setChild d new.addr)
              CMap.store new.addr (MapNode.setUp x.addr)
              CMap.fixColors rounds new.addr
              return true
            else CMap.insertFrom comparator rounds new.addr fuel (addr t')) m
            (isLeaf (locate (rank ∘ MapItem.key) (rank new.key) t' (⟨d, c, x, s⟩ :: ctx)).2)
            (Inserted new (plug ctx (join d c x t' s)) rest
              (locate (rank ∘ MapItem.key) (rank new.key) t' (⟨d, c, x, s⟩ :: ctx))) := by
        rw [same] at tree fits
        by_cases last : addr t' = 0
        · obtain rfl := (tree.down d).eq_leaf last
          rw [if_pos last]
          refine attach_does d tree fun m' tree' => ?_
          have place := redFits_single ((fits_cons ⟨d, c, x, s⟩).mpr fits) new
          refine (fixColors_does tree' place (Nat.lt_of_le_of_lt (Nat.le_add_right ..) fewer')).bind
            fun m'' done => ?_
          exact .pure true done
        · rw [if_neg last]
          exact ih (tree.down d) ((fits_cons _).mpr fits) nulls' last fewer (by simpa using fewer')
      have down := tree.holds
      rw [cells_join, add_assoc, addr_join] at down
      have keyOf : CMap.keyOf (.of .left c x (addr l) (addr r) (above ctx)) m = .ok (x.key, m) := rfl
      have newKey : CMap.keyOf (.of .left .red new 0 0 0) m = .ok (new.key, m) := rfl
      rw [CMap.insertFrom, addr_join]
      refine .load down (.load newHolds (.reads newKey (.reads keyOf ?_)))
      show Does _ m (isLeaf (locate (rank ∘ MapItem.key) (rank new.key) (.node c l x r) ctx).2)
        (Inserted new (plug ctx (join .left c x l r)) rest
          (locate (rank ∘ MapItem.key) (rank new.key) (.node c l x r) ctx))
      rw [locate, Function.comp_apply]
      by_cases same : rank new.key = rank x.key
      · rw [if_pos ((ranks.eq_iff new.key x.key).mpr same), if_pos same]
        refine (deleteNode_does tree).bind fun m' tree' => .pure false ?_
        exact (represents_plug ctx _).mpr tree'
      · rw [if_neg fun equal => same ((ranks.eq_iff new.key x.key).mp equal), if_neg same]
        by_cases less : rank new.key < rank x.key
        · rw [if_pos ((ranks.lt_iff new.key x.key).mpr less), if_pos less]
          exact child .left l r nullsLeft rfl (by omega) (by omega)
        · rw [if_neg fun before => less ((ranks.lt_iff new.key x.key).mp before), if_neg less]
          exact child .right r l nullsRight rfl (by omega) (by omega)

/-- `c_map_insert`: the key is searched for, and the new node stands at the place where it belongs; if the key
is there, nothing changes but the size. -/
theorem insert_ranked (ranks : Ranks rank comparator) (tree : Represents m [] t rest) (redBlack : RedBlack t)
    (nulls : Nulls t.walk) (free : m.heap new.addr = none) (nonzero : new.addr ≠ 0)
    (enough : t.count + 1 < fuel) :
    ∃ m', CMap.insert comparator fuel new.addr new.key new.value m =
        .ok (isLeaf (locate (rank ∘ MapItem.key) (rank new.key) t []).2, m') ∧
      m'.size = m.size + 1 ∧ Inserted new t rest (locate (rank ∘ MapItem.key) (rank new.key) t []) m' ∧
      match (locate (rank ∘ MapItem.key) (rank new.key) t []).2 with
      | .leaf _ =>
          Extremes (plug (locate (rank ∘ MapItem.key) (rank new.key) t []).1 (single new)).walk m'.itLeast m'.itMost
      | .node .. => m'.itLeast = m.itLeast ∧ m'.itMost = m.itMost := by
  -- the new node, which is in no tree yet
  have created : HoldsCells (Function.update m.heap new.addr (some (.of .left .red new 0 0 0)))
      (newCell new + (cells 0 t + (0 + rest))) := tree.holds.alloc free nonzero _
  let m₁ : CMap K V :=
    { m with heap := Function.update m.heap new.addr (some (.of .left .red new 0 0 0)), size := m.size + 1 }
  have tree₁ : Represents m₁ [] t (newCell new + rest) :=
    ⟨created.of_eq (by rw [placeCells, above]; abel), tree.head⟩
  have reads : (get : CMap.Op K V (CMap K V)) m₁ = .ok (m₁, m₁) := rfl
  have unfolded : CMap.insert comparator fuel new.addr new.key new.value m = (if m₁.head = 0 then do
      CMap.setHead new.addr
      CMap.store new.addr (MapNode.setColor .black)
      CMap.calibrate fuel
      return true
    else do
      if ← CMap.insertFrom comparator fuel new.addr fuel m₁.head then
        CMap.calibrate fuel
        return true
      else return false : CMap.Op K V Bool) m₁ := rfl
  have located : plug (locate (rank ∘ MapItem.key) (rank new.key) t []).1
      (locate (rank ∘ MapItem.key) (rank new.key) t []).2 = t := plug_locate t []
  by_cases empty : addr t = 0
  · obtain rfl := tree.eq_leaf empty
    have root : m₁.head = 0 := tree.head
    rw [unfolded, if_pos root]
    let m₂ : CMap K V := { m₁ with head := new.addr }
    have tree₂ : Represents m₂ [] (single new) rest := by
      refine ⟨created.of_eq ?_, rfl⟩
      rw [single, cells_join, cells_leaf_zero, cells_leaf_zero, placeCells, zero_add, add_zero, zero_add,
        zero_add]
      rfl
    obtain ⟨m₃, painted, same, tree₃⟩ := paint_does .black tree₂
    have walk : (join .left .black new (.leaf 0) (.leaf 0) : MapTree K V).walk = (single new).walk := rfl
    obtain ⟨least, most, calibrated, extremes⟩ := calibrate_ok fuel tree₃ (nulls_single [] nulls new)
      (Nat.lt_of_le_of_lt (Nat.le_add_left ..) enough)
    have sets : (CMap.setHead new.addr : CMap.Op K V Unit) m₁ = .ok ((), m₂) := rfl
    rw [run_bind sets, run_bind painted, run_bind calibrated]
    exact ⟨_, rfl, same.size, ⟨_, ⟨tree₃.holds, tree₃.head⟩,
      ⟨rfl, 1, (balanced_join_black ..).mpr ⟨.leaf 0, .leaf 0⟩⟩, walk⟩, extremes⟩
  · have root : m₁.head ≠ 0 := fun null => empty (tree.head.symm.trans null)
    rw [unfolded, if_neg root, show m₁.head = addr t from tree.head]
    obtain ⟨m₂, ran, same, inserted⟩ := insertFrom_does fuel ranks tree₁ ((redBlack_plug []).mp redBlack)
      nulls empty (Nat.lt_of_succ_lt enough) (by rw [List.length_nil]; omega)
    rw [run_bind ran]
    generalize locate (rank ∘ MapItem.key) (rank new.key) t [] = place at *
    obtain ⟨ctx, t'⟩ := place
    subst located
    cases t' with
    | leaf a =>
        obtain ⟨t', tree₂, redBlack₂, walk⟩ := inserted
        obtain ⟨least, most, calibrated, extremes⟩ := calibrate_ok fuel tree₂ (by
          rw [walk]
          exact nulls_single ctx nulls new) (by
          rw [← length_items] at enough ⊢
          rw [(items_single a new).2, List.length_append] at enough
          rw [walk, (items_single a new).1, List.length_append, List.length_cons]
          omega)
        rw [walk] at extremes
        exact ⟨{ m₂ with itLeast := least, itMost := most }, (run_bind calibrated).trans rfl, same.size,
          ⟨t', ⟨tree₂.holds, tree₂.head⟩, redBlack₂, walk⟩, extremes⟩
    | node c l x r => exact ⟨m₂, rfl, same.size, inserted, same.itLeast, same.itMost⟩

/-- `c_map_insert`, for a comparison function that tells all keys apart. -/
theorem insert_ok [LinearOrder K] (compares : Compares comparator) (tree : Represents m [] t rest)
    (redBlack : RedBlack t) (nulls : Nulls t.walk) (free : m.heap new.addr = none) (nonzero : new.addr ≠ 0)
    (enough : t.count + 1 < fuel) :
    ∃ m', CMap.insert comparator fuel new.addr new.key new.value m =
        .ok (isLeaf (locate MapItem.key new.key t []).2, m') ∧
      m'.size = m.size + 1 ∧ Inserted new t rest (locate MapItem.key new.key t []) m' ∧
      match (locate MapItem.key new.key t []).2 with
      | .leaf _ => Extremes (plug (locate MapItem.key new.key t []).1 (single new)).walk m'.itLeast m'.itMost
      | .node .. => m'.itLeast = m.itLeast ∧ m'.itMost = m.itMost :=
  insert_ranked compares.ranks tree redBlack nulls free nonzero enough

end Insert

end Riscv2os.Emulator
