import Riscv2os.Emulator.SymbolInsert
import Riscv2os.Std.Loops

/-!
# Removal from the symbol map

`c_map_delete_fixup` makes a red-black tree of one in which a black node is missing at one place, without
moving an item; `c_map_erase` takes a node out of the tree.
-/

namespace Riscv2os.Emulator

open Riscv2os.Std
open Riscv2os.Std.ColoredTree
open MapTree

variable {K V : Type} {m : CMap K V} {ctx : MapPlace K V} {c : Color} {d : Side}
  {x y p z : MapItem K V} {t s w a b : MapTree K V} {rest : Multiset (Address × MapNode K V)} {fuel : Nat}

/-- At the root the loop ends. -/
theorem fixupFrom_root {post : Address → CMap K V → Prop} (root : m.head = addr t) (holds : post (addr t) m)
    (b : Address) : Ends (CMap.fixupFrom (fuel + 1) (addr t) b d) m post := by
  have reads : (get : CMap.Op K V (CMap K V)) m = .ok (m, m) := rfl
  rw [CMap.fixupFrom]
  refine .reads reads ?_
  rw [root, if_pos rfl]
  exact .pure _ holds

/-- The only child, on whichever side it is. -/
theorem MapNode.onlyChild_of (d : Side) (c : Color) (x : MapItem K V) (a up : Address) :
    (if (MapNode.of d c x a 0 up).left = 0 then (MapNode.of d c x a 0 up).right
      else (MapNode.of d c x a 0 up).left) = a := by
  cases d
  · show (if a = 0 then 0 else a) = a
    split
    · rename_i none
      exact none.symm
    · rfl
  · rfl

/-- Whether the place is to the left of the node above. -/
def isLeft : MapPlace K V → Bool
  | [] => false
  | f :: _ => f.side == .left

/-- The address above a place, and the side, do not depend on the items further up. -/
theorem above_item {z : MapItem K V} (inner : MapPlace K V) (same : z.addr = x.addr) :
    above (inner ++ ⟨d, c, z, w⟩ :: ctx) = above (inner ++ ⟨d, c, x, w⟩ :: ctx) ∧
      isLeft (inner ++ ⟨d, c, z, w⟩ :: ctx) = isLeft (inner ++ ⟨d, c, x, w⟩ :: ctx) := by
  cases inner with
  | nil => exact ⟨same, rfl⟩
  | cons f inner => exact ⟨rfl, rfl⟩

section Free

/-! ## Free addresses -/

variable {α β : Type} {op : CMap.Op K V α} {next : α → CMap.Op K V β}

/-- The call allocates nothing. -/
def KeepsFree (op : CMap.Op K V α) : Prop :=
  ∀ m result m', op m = .ok (result, m') → ∀ a, m.heap a = none → m'.heap a = none

theorem KeepsFree.bind (first : KeepsFree op) (second : ∀ result, KeepsFree (next result)) :
    KeepsFree (op >>= next) := by
  intro m final m' ran a free
  obtain ⟨⟨result, m₁⟩, ran₁, ran₂⟩ :=
    bind_ok.mp (show (op m >>= fun r => next r.1 r.2) = .ok (final, m') from ran)
  exact second result m₁ final m' ran₂ a (first m result m₁ ran₁ a free)

theorem KeepsFree.pure (result : α) : KeepsFree (pure result : CMap.Op K V α) := by
  intro m final m' ran a free
  cases ran
  exact free

theorem load_state {a : Address} {m m' : CMap K V} {n : MapNode K V} (ran : CMap.load a m = .ok (n, m')) :
    m' = m ∧ m.heap a = some n := by
  unfold CMap.load at ran
  split at ran
  · cases ran
  · split at ran
    · cases ran
      exact ⟨rfl, by assumption⟩
    · cases ran

theorem KeepsFree.load (a : Address) : KeepsFree (CMap.load a : CMap.Op K V (MapNode K V)) := by
  intro m n m' ran b free
  rw [(load_state ran).1]
  exact free

theorem KeepsFree.store (a : Address) (change : MapNode K V → MapNode K V) :
    KeepsFree (CMap.store a change) := by
  intro m result m' ran b free
  obtain ⟨⟨n, m₁⟩, ran₁, ran₂⟩ := bind_ok.mp
    (show (CMap.load a m >>= fun r => (modify fun m => { m with
      heap := Function.update m.heap a (some (change r.1)) } : CMap.Op K V Unit) r.2) = .ok (result, m') from ran)
  obtain ⟨rfl, content⟩ := load_state ran₁
  cases ran₂
  show Function.update m₁.heap a (some (change n)) b = none
  rw [Function.update_of_ne]
  · exact free
  · rintro rfl
    rw [free] at content
    cases content

theorem unlink_keepsFree (y x up : Address) : KeepsFree (CMap.unlink y x up : CMap.Op K V Bool) := by
  unfold CMap.unlink CMap.adopt
  refine .bind ?_ fun _ => ?_
  · split
    · exact .pure ()
    · exact .store _ _
  · split
    · exact .bind (fun m result m' ran a free => by cases ran; exact free) fun _ => .pure false
    · refine .bind (.load up) fun n => ?_
      split
      · exact .bind (.store _ _) fun _ => .pure true
      · exact .bind (.store _ _) fun _ => .pure false

theorem moveItem_keepsFree (node y : Address) : KeepsFree (CMap.moveItem node y : CMap.Op K V Unit) := by
  unfold CMap.moveItem
  split
  · exact .pure ()
  · exact .bind (.load y) fun n => .bind (.store _ _) fun _ => .store _ _

end Free

variable [Inhabited K] [Inhabited V]

section Fixup

/-! ## A missing black node -/

/-- The cell of a subtree that is there is read. -/
theorem Represents.cell (tree : Represents m ctx t rest) (some : addr t ≠ 0) :
    ∃ n others, HoldsCells m.heap ({(addr t, n)} + others) ∧ n.up = above ctx ∧ n.color = t.color := by
  obtain ⟨n, more, parts, up, color⟩ := exists_cell some (above ctx)
  have holds := tree.holds
  rw [parts, add_assoc] at holds
  exact ⟨n, _, holds, up, color⟩

/-- A subtree below a node is not the root. -/
theorem Represents.not_head {f : Frame Address (MapItem K V)} (tree : Represents m (f :: ctx) t rest)
    (some : addr t ≠ 0) : addr t ≠ m.head := by
  obtain ⟨n, more, parts, -, -⟩ := exists_cell some (above (f :: ctx))
  obtain ⟨holds, head⟩ := tree
  rw [parts] at holds
  rw [head]
  exact (rootOf_ne f (addr t) (holds.reorder (placeCells (f :: ctx) (addr t) + ({(addr t, n)} + (more + rest)))
    (by abel))).symm

/-- The far child of a node. -/
theorem represents_far (d : Side) :
    Represents m (⟨d.other, c, x, t⟩ :: ctx) s rest ↔ Represents m ctx (join d c x t s) rest := by
  rw [represents_cons, fill_mk, join_other]

/-- After it the sibling is black. -/
theorem blackSibling_does (tree : Represents m (⟨d, c, p, w⟩ :: ctx) t rest)
    (short : Short (⟨d, c, p, w⟩ :: ctx) t) :
    ∃ c' y a b ctx', Does (CMap.blackSibling d p.addr) m (p.addr, y.addr)
        (fun m' => Represents m' (⟨d, c', p, join d .black y a b⟩ :: ctx') t rest) ∧
      Short (⟨d, c', p, join d .black y a b⟩ :: ctx') t ∧
      (plug (⟨d, c', p, join d .black y a b⟩ :: ctx') t).walk = (plug (⟨d, c, p, w⟩ :: ctx) t).walk ∧
      (ctx' = ctx ∨ c' = .red) := by
  obtain ⟨c', y, a, b, rfl⟩ := short.sibling
  have sibling := (represents_turn d).mp tree
  cases c' with
  | black =>
      refine ⟨c, y, a, b, ctx, ?_, short, rfl, .inl rfl⟩
      unfold CMap.blackSibling
      refine .loadAbove tree ?_
      simp only [MapNode.child_other_of, addr_join]
      refine .loadNode sibling ?_
      rw [MapNode.color_of, if_neg (by decide)]
      exact .pure _ tree
  | red =>
      obtain ⟨rfl, ⟨z, a', b', rfl⟩, short'⟩ := short.redSibling
      refine ⟨.red, z, a', b', ⟨d, .black, y, b⟩ :: ctx, ?_, short', ?_, .inr rfl⟩
      · unfold CMap.blackSibling
        refine .loadAbove tree ?_
        simp only [MapNode.child_other_of, addr_join]
        refine .loadNode sibling ?_
        rw [MapNode.color_of, if_pos rfl]
        refine (paint_does .black sibling).bind fun m₁ tree₁ => ?_
        refine (paintAbove_does .red tree₁).bind fun m₂ tree₂ => ?_
        rw [represents_far] at tree₂
        refine (rotate_does d tree₂).bind fun m₃ tree₃ => ?_
        refine .loadNode tree₃ ?_
        rw [MapNode.child_of, addr_join]
        have below : Represents m₃ (⟨d, .black, y, b⟩ :: ctx) (join d .red p t (join d .black z a' b')) rest :=
          tree₃.down d
        refine .loadNode below ?_
        rw [MapNode.child_other_of, addr_join]
        exact .pure _ (below.down d)
      · refine walk_plug_congr ctx ?_
        cases d <;> simp [walk_join]

/-- After it the far child of the sibling is red. -/
theorem redFar_does (tree : Represents m (⟨d, c, p, join d .black y a b⟩ :: ctx) t rest)
    (short : Short (⟨d, c, p, join d .black y a b⟩ :: ctx) t) (one : ¬ (a.color = .black ∧ b.color = .black)) :
    ∃ y' a' b', Does (CMap.redFar d p.addr y.addr b.color) m y'.addr
        (fun m' => Represents m' (⟨d, c, p, join d .black y' a' b'⟩ :: ctx) t rest) ∧
      Short (⟨d, c, p, join d .black y' a' b'⟩ :: ctx) t ∧ b'.color = .red ∧
      (plug (⟨d, c, p, join d .black y' a' b'⟩ :: ctx) t).walk =
        (plug (⟨d, c, p, join d .black y a b⟩ :: ctx) t).walk := by
  unfold CMap.redFar
  by_cases far : b.color = .black
  · have near : a.color = .red := by
      cases color : a.color
      · rfl
      · exact absurd ⟨color, far⟩ one
    obtain ⟨z, a', b', rfl⟩ := exists_join_red d near
    rw [if_pos far]
    have sibling := (represents_turn d).mp tree
    refine ⟨z, a', join d .red y b' b, ?_, short.far far, color_join .., ?_⟩
    · refine .loadNode sibling ?_
      rw [MapNode.child_of, addr_join]
      refine (paint_does .black (sibling.down d)).bind fun m₁ tree₁ => ?_
      refine (paintAbove_does .red tree₁).bind fun m₂ tree₂ => ?_
      rw [represents_cons, fill_mk, ← join_other, ← join_other d] at tree₂
      refine (rotate_does d.other tree₂).bind fun m₃ tree₃ => ?_
      rw [join_other, join_other] at tree₃
      have turned := (represents_turn d).mpr tree₃
      refine .loadAbove turned ?_
      rw [MapNode.child_other_of, addr_join]
      exact .pure _ turned
    · refine walk_plug_congr ctx ?_
      cases d <;> simp [walk_join]
  · rw [if_neg far]
    have red : b.color = .red := by
      cases color : b.color
      · rfl
      · exact absurd color far
    exact ⟨y, a, b, .pure _ tree, short, red, rfl⟩

/-- The gap is filled. -/
theorem fillGap_does (tree : Represents m (⟨d, c, p, join d .black y a b⟩ :: ctx) t rest)
    (short : Short (⟨d, c, p, join d .black y a b⟩ :: ctx) t) (black : t.color = .black)
    (one : ¬ (a.color = .black ∧ b.color = .black)) :
    Does (CMap.fillGap d p.addr y.addr b.color) m ()
      (IsRedBlack (plug (⟨d, c, p, join d .black y a b⟩ :: ctx) t).walk rest) := by
  obtain ⟨y', a', b', turns, short', red, walk⟩ := redFar_does tree short one
  rw [← walk]
  unfold CMap.fillGap
  refine turns.bind fun m₁ tree₁ => ?_
  have sibling := (represents_turn d).mp tree₁
  refine .loadAbove tree₁ ?_
  rw [MapNode.color_of]
  refine (paint_does c sibling).bind fun m₂ tree₂ => ?_
  refine (paintAbove_does .black tree₂).bind fun m₃ tree₃ => ?_
  refine .loadNode tree₃ ?_
  rw [MapNode.child_other_of]
  have far := (represents_far d).mpr tree₃
  obtain ⟨z, l, r, rfl⟩ := exists_join_red d red
  unfold CMap.paintBlack
  rw [addr_join, if_neg far.addr_join_ne]
  refine (paint_does .black far).bind fun m₄ tree₄ => ?_
  rw [represents_far, represents_far] at tree₄
  refine (rotate_does d tree₄).bind fun m₅ tree₅ => ?_
  have done := tree₅.isRedBlack (by simpa using short'.fill black red)
  refine .pure () ?_
  rw [show (plug (⟨d, c, p, join d .black y' a' (join d .red z l r)⟩ :: ctx) t).walk =
    (plug ctx (join d c y' (join d .black p t a') (join d .black z l r))).walk by
      refine walk_plug_congr ctx ?_
      cases d <;> simp [walk_join]]
  exact done

/-- The node with which the loop ends: painted black, it fits. -/
def Fixable (walk : List (Address ⊕ MapItem K V)) (rest : Multiset (Address × MapNode K V)) (node : Address)
    (m : CMap K V) : Prop :=
  ∃ ctx t, node = addr t ∧ addr t ≠ 0 ∧ Represents m ctx t rest ∧ Fits ctx t.blacken ∧ (plug ctx t).walk = walk

/-- The loop of `c_map_delete_fixup`. -/
theorem fixupFrom_ends (tree : Represents m ctx t rest) (short : Short ctx t) (some : addr t ≠ 0)
    (side : ∀ f ∈ ctx.head?, f.side = d) (enough : (if t.color = .red then 0 else ctx.length) < fuel) :
    Ends (CMap.fixupFrom fuel (addr t) (above ctx) d) m (Fixable (plug ctx t).walk rest) := by
  induction fuel generalizing ctx t m d with
  | zero => exact absurd enough (Nat.not_lt_zero _)
  | succ fuel ih =>
      cases ctx with
      | nil => exact fixupFrom_root tree.head ⟨[], t, rfl, some, tree, short.root, rfl⟩ _
      | cons f ctx =>
          obtain ⟨d', c, p, w⟩ := f
          obtain rfl : d' = d := side _ rfl
          have reads : (get : CMap.Op K V (CMap K V)) m = .ok (m, m) := rfl
          obtain ⟨n, others, holds, up, color⟩ := tree.cell some
          rw [CMap.fixupFrom]
          refine .reads reads ?_
          rw [if_neg (tree.not_head some)]
          refine .reads (load_ok holds) ?_
          rw [color]
          by_cases red : t.color = .red
          · rw [if_pos red]
            exact .pure _ ⟨_, t, rfl, some, tree, short.red red, rfl⟩
          · rw [if_neg red]
            have black := color_eq_black red
            obtain ⟨c', y, a, b, ctx', turns, short', walk, moved⟩ := blackSibling_does tree short
            rw [← walk, above]
            refine turns.bindEnds fun m₁ tree₁ => ?_
            have sibling := (represents_turn d').mp tree₁
            obtain ⟨others₁, holds₁⟩ := sibling.node
            refine .reads (load_ok holds₁) ?_
            rw [MapNode.child_of]
            refine .reads (colorOf_ok (sibling.down d')) (.reads (load_ok holds₁) ?_)
            rw [MapNode.child_other_of]
            refine .reads (colorOf_ok ((represents_far d').mpr sibling)) ?_
            by_cases both : a.color = .black ∧ b.color = .black
            · -- the sibling turns red, and the gap goes up
              rw [if_pos both]
              refine (paint_does .red sibling).bindEnds fun m₂ tree₂ => ?_
              have up := short'.up black both.1 both.2
              have turned := (represents_turn d').mpr tree₂
              obtain ⟨n₂, others₂, holds₂, up₂, -⟩ := turned.cell some
              refine .reads (load_ok holds₂) ?_
              rw [up₂, above]
              have here : Represents m₂ ctx' (join d' c' p t (join d' .red y a b)) rest :=
                (represents_cons _).mp turned
              obtain ⟨others₃, holds₃⟩ := here.node
              refine .reads (load_ok holds₃) ?_
              rw [MapNode.up_of]
              have walk₂ : (plug ctx' (join d' c' p t (join d' .red y a b))).walk =
                  (plug (⟨d', c', p, join d' .black y a b⟩ :: ctx') t).walk :=
                walk_plug_congr ctx' (walk_join_congr rfl (walk_join_congr rfl rfl))
              have enough' :
                  (if (join d' c' p t (join d' .red y a b)).color = .red then 0 else ctx'.length) < fuel := by
                rw [if_neg red, List.length_cons] at enough
                rw [color_join]
                split
                · omega
                · rename_i notRed
                  rw [moved.resolve_right notRed]
                  omega
              rw [← walk₂]
              cases ctx' with
              | nil =>
                  have next :=
                    ih (d := d') here up (by rw [addr_join]; exact here.addr_join_ne) (by simp) enough'
                  rwa [addr_join] at next
              | cons g ctx' =>
                  obtain ⟨e, c₂, z, u⟩ := g
                  obtain ⟨others₄, holds₄⟩ := ((represents_cons _).mp here).node
                  have next :=
                    ih (d := e) here up (by rw [addr_join]; exact here.addr_join_ne) (by simp) enough'
                  rw [addr_join] at next
                  rw [above, if_neg holds₄.ne_zero]
                  refine .reads (load_ok holds₄) ?_
                  have other : addr u ≠ p.addr := here.sibling_ne
                  have reading : (if p.addr = (MapNode.of e c₂ z p.addr (addr u) (above ctx')).left then Side.left
                      else Side.right) = e := by
                    cases e
                    · exact if_pos rfl
                    · exact if_neg other.symm
                  simp only [addr_join, reading]
                  exact next
            · rw [if_neg both]
              refine (fillGap_does tree₁ short' black both).bindEnds fun m₂ filled => ?_
              obtain ⟨T, treeT, redBlack, walkT⟩ := filled
              have reads₂ : (get : CMap.Op K V (CMap K V)) m₂ = .ok (m₂, m₂) := rfl
              refine .reads reads₂ ?_
              rw [if_neg red, List.length_cons] at enough
              obtain ⟨fuel, rfl⟩ : ∃ k, fuel = k + 1 := ⟨fuel - 1, by omega⟩
              have root : m₂.head = addr T := treeT.head
              rw [root]
              refine fixupFrom_root root ⟨[], T, rfl, fun null => ?_, treeT, ?_, walkT⟩ 0
              · have size := count_plug (⟨d', c', p, join d' .black y a b⟩ :: ctx') t
                rw [← count_eq_of_walk walkT, treeT.eq_leaf null, List.length_cons] at size
                exact absurd size (by simp [count])
              · rw [blacken_of_black redBlack.1]
                exact (redBlack_plug []).mp redBlack

/-- `c_map_delete_fixup`: a map that is red-black, with the same items. -/
theorem deleteFixup_does (tree : Represents m ctx t rest) (short : Short ctx t) (some : addr t ≠ 0)
    (yIsLeft : Bool)
    (side : ∀ f ∈ ctx.head?, f.side = if yIsLeft then .left else .right) (enough : ctx.length < fuel) :
    Does (CMap.deleteFixup fuel (addr t) (above ctx) yIsLeft) m () (IsRedBlack (plug ctx t).walk rest) := by
  unfold CMap.deleteFixup
  rw [if_neg some]
  refine (fixupFrom_ends tree short some side ?_).bind
    fun node m' ⟨ctx', t', same, some', tree', fits, walk⟩ => ?_
  · split
    · exact Nat.zero_lt_of_lt enough
    · exact enough
  · rw [same, ← walk, ← walk_plug_congr ctx' (walk_blacken (t := t'))]
    exact (paintBlack_does tree' some').mono fun m'' tree'' => tree''.isRedBlack fits

end Fixup

section Unlink

/-! ## Taking a node out -/

/-- What is left of a node when it is out of the tree. -/
def goneCell (d : Side) (c : Color) (y : MapItem K V) (a up : Address) : Multiset (Address × MapNode K V) :=
  {(y.addr, .of d c y a 0 up)}

/-- A node with at most one child is replaced by it. -/
theorem unlink_does (tree : Represents m ctx (join d c y s (.leaf 0)) rest) :
    Does (CMap.unlink y.addr (addr s) (above ctx)) m (isLeft ctx) fun m' =>
      Represents m' ctx s (goneCell d c y (addr s) (above ctx) + rest) := by
  obtain ⟨holds, head⟩ := tree
  rw [cells_join, cells_leaf_zero, addr_join, addr_leaf, add_zero] at holds
  rw [addr_join] at head
  have cells₀ := holds.reorder (cells y.addr s + (placeCells ctx y.addr +
    (goneCell d c y (addr s) (above ctx) + rest))) (by rw [goneCell]; abel)
  unfold CMap.unlink
  refine (adopt_does cells₀ _).bind fun m₁ ⟨cells₁, same₁⟩ => ?_
  cases ctx with
  | nil =>
      rw [above, if_pos rfl]
      exact ⟨_, rfl, ⟨rfl, rfl, rfl⟩, cells₁, rfl⟩
  | cons f ctx =>
      obtain ⟨e, c', z, u⟩ := f
      rw [placeCells] at cells₁
      have cells₂ := cells₁.reorder ({(z.addr, .of e c' z y.addr (addr u) (above ctx))} +
        (cells z.addr s + (cells z.addr u + (placeCells ctx z.addr + (goneCell d c y (addr s) z.addr + rest)))))
        (by rw [above]; abel)
      rw [above, if_neg cells₂.ne_zero]
      refine .load cells₂ ?_
      have other : addr u ≠ y.addr :=
        addr_ne (b := z.addr) (n := .of d c y (addr s) 0 z.addr) (cells₂.reorder (cells z.addr u +
          ({(y.addr, .of d c y (addr s) 0 z.addr)} + (cells z.addr s +
            ({(z.addr, .of e c' z y.addr (addr u) (above ctx))} + (placeCells ctx z.addr + rest)))))
          (by rw [goneCell]; abel))
      have done (m₂ : CMap K V) (stored : HoldsCells m₂.heap ({(z.addr, .of e c' z (addr s) (addr u) (above ctx))} +
          (cells z.addr s + (cells z.addr u + (placeCells ctx z.addr + (goneCell d c y (addr s) z.addr + rest))))) ∧
          m₂.head = m₁.head) :
          Represents m₂ (⟨e, c', z, u⟩ :: ctx) s (goneCell d c y (addr s) z.addr + rest) := by
        refine ⟨stored.1.of_eq ?_, by rw [stored.2, same₁, head]; rfl⟩
        rw [placeCells, above]
        abel
      cases e with
      | left =>
          rw [if_pos (show y.addr = (MapNode.of .left c' z y.addr (addr u) (above ctx)).left from rfl)]
          refine (store_does cells₂ _).bind fun m₂ stored => ?_
          exact .pure true (done m₂ stored)
      | right =>
          rw [if_neg (show y.addr ≠ (MapNode.of .right c' z y.addr (addr u) (above ctx)).left from other.symm)]
          refine (store_does cells₂ _).bind fun m₂ stored => ?_
          exact .pure false (done m₂ stored)

/-- A new node with the blank key. -/
theorem createBlank_does {cs : Multiset (Address × MapNode K V)} {fresh : Address}
    (holds : HoldsCells m.heap cs)
    (free : m.heap fresh = none) (nonzero : fresh ≠ 0) :
    Does (CMap.createNode fresh none none) m () fun m' =>
      HoldsCells m'.heap ({(fresh, ⟨some default, some default, 0, 0, 0, .red⟩)} + cs) ∧ m'.head = m.head :=
  ⟨_, rfl, ⟨rfl, rfl, rfl⟩, holds.alloc free nonzero _, rfl⟩

/-- The blank node comes to the place of a leaf. -/
theorem attachBlank_does {b fresh : Address} {n : MapNode K V} {f : Frame Address (MapItem K V)}
    (tree : Represents m (f :: ctx) (.leaf 0) ({(b, n)} + rest)) (up : n.up = f.item.addr)
    (sibling : f.side = .right → addr f.sibling ≠ 0) (free : m.heap fresh = none) (nonzero : fresh ≠ 0) :
    Does (CMap.attachBlank fresh b) m () fun m' =>
      Represents m' (f :: ctx) (.leaf fresh) ({(b, n)} + rest) := by
  obtain ⟨e, c', z, u⟩ := f
  obtain ⟨holds, head⟩ := tree
  rw [cells_leaf_zero, zero_add, placeCells, addr_leaf] at holds
  unfold CMap.attachBlank
  refine (createBlank_does holds free nonzero).bind fun m₁ created => ?_
  obtain ⟨cells₁, same₁⟩ := created
  generalize blank : (⟨some default, some default, 0, 0, 0, .red⟩ : MapNode K V) = new at cells₁
  -- the node that left the tree, and the node above the place
  have cells₂ := cells₁.reorder ({(b, n)} + ({(z.addr, .of e c' z 0 (addr u) (above ctx))} +
    ({(fresh, new)} + (cells z.addr u + (placeCells ctx z.addr + rest))))) (by abel)
  have done (m₂ : CMap K V) (stored : HoldsCells m₂.heap ({(z.addr, .of e c' z fresh (addr u) (above ctx))} +
      ({(b, n)} + ({(fresh, new)} + (cells z.addr u + (placeCells ctx z.addr + rest))))) ∧ m₂.head = m₁.head) :
      Does (do
        CMap.store fresh (MapNode.setUp (← CMap.load b).up)
        CMap.store fresh (MapNode.setColor .black)) m₂ () fun m' =>
          Represents m' (⟨e, c', z, u⟩ :: ctx) (.leaf fresh) ({(b, n)} + rest) := by
    refine .load stored.1.swap ?_
    have cells₃ := stored.1.reorder ({(fresh, new)} + ({(b, n)} +
      ({(z.addr, .of e c' z fresh (addr u) (above ctx))} + (cells z.addr u + (placeCells ctx z.addr + rest)))))
      (by abel)
    refine (store_does cells₃ _).bind fun m₃ linked => ?_
    obtain ⟨cells₄, same₃⟩ := linked
    refine (store_does cells₄ _).mono fun m₄ painted => ?_
    obtain ⟨cells₅, same₄⟩ := painted
    constructor
    · refine cells₅.of_eq ?_
      have finished : (new.setUp n.up).setColor .black = .blank z.addr := by
        rw [← blank, up]
        rfl
      rw [cells_leaf _ nonzero, placeCells, above, finished, addr_leaf]
      abel
    · rw [same₄, same₃, stored.2, same₁, head]
      rfl
  refine .load cells₂ ?_
  rw [up]
  refine .load cells₂.swap ?_
  cases e with
  | left =>
      rw [if_pos (show (MapNode.of .left c' z 0 (addr u) (above ctx)).left = 0 from rfl)]
      exact (store_does cells₂.swap _).bind done
  | right =>
      rw [if_neg (show (MapNode.of .right c' z 0 (addr u) (above ctx)).left ≠ 0 from sibling rfl)]
      exact (store_does cells₂.swap _).bind done

/-- The blank node is taken out again. -/
theorem detachBlank_does {blank : Address} {f : Frame Address (MapItem K V)}
    (tree : Represents m (f :: ctx) (.leaf blank) rest) (nonzero : blank ≠ 0) :
    Does (CMap.detachBlank blank) m () fun m' =>
      Represents m' (f :: ctx) (.leaf 0) ({(blank, .blank f.item.addr)} + rest) := by
  obtain ⟨e, c', z, u⟩ := f
  obtain ⟨holds, head⟩ := tree
  rw [cells_leaf _ nonzero, placeCells, addr_leaf, above] at holds
  have cells₁ := holds.reorder ({(blank, .blank z.addr)} + ({(z.addr, .of e c' z blank (addr u) (above ctx))} +
    (cells z.addr u + (placeCells ctx z.addr + rest)))) (by abel)
  have other : addr u ≠ blank :=
    addr_ne (b := z.addr) (n := .blank z.addr) (cells₁.reorder (cells z.addr u + ({(blank, .blank z.addr)} +
      ({(z.addr, .of e c' z blank (addr u) (above ctx))} + (placeCells ctx z.addr + rest)))) (by abel))
  have done (m₂ : CMap K V) (stored : HoldsCells m₂.heap ({(z.addr, .of e c' z 0 (addr u) (above ctx))} +
      ({(blank, .blank z.addr)} + (cells z.addr u + (placeCells ctx z.addr + rest)))) ∧ m₂.head = m.head) :
      Represents m₂ (⟨e, c', z, u⟩ :: ctx) (.leaf 0) ({(blank, .blank z.addr)} + rest) := by
    refine ⟨stored.1.of_eq ?_, by rw [stored.2, head]; rfl⟩
    rw [cells_leaf_zero, zero_add, placeCells, addr_leaf]
    abel
  unfold CMap.detachBlank
  refine .load cells₁ ?_
  rw [show (MapNode.blank z.addr : MapNode K V).up = z.addr from rfl, if_neg cells₁.swap.ne_zero]
  refine .load cells₁.swap ?_
  cases e with
  | left =>
      rw [if_pos (show (MapNode.of .left c' z blank (addr u) (above ctx)).left = blank from rfl)]
      exact (store_does cells₁.swap _).mono done
  | right =>
      rw [if_neg (show (MapNode.of .right c' z blank (addr u) (above ctx)).left ≠ blank from other)]
      exact (store_does cells₁.swap _).mono done

/-- The fix-up with a blank node, when a black node without children left the tree. -/
theorem fixBlank_does {b fresh : Address} {n : MapNode K V} {f : Frame Address (MapItem K V)}
    (tree : Represents m (f :: ctx) (.leaf 0) ({(b, n)} + rest)) (up : n.up = f.item.addr)
    (short : Short (f :: ctx) (.leaf (0 : Address))) (nulls : Nulls (plug (f :: ctx) (.leaf 0)).walk)
    (free : m.heap fresh = none) (nonzero : fresh ≠ 0) (enough : (f :: ctx).length < fuel) :
    Does (CMap.fixBlack fuel fresh b 0 f.item.addr (isLeft (f :: ctx)) .black) m ()
      (IsRedBlack (plug (f :: ctx) (.leaf 0)).walk ({(b, n)} + rest)) := by
  have sibling : addr f.sibling ≠ 0 := by
    obtain ⟨e, c', z, u⟩ := f
    obtain ⟨c₁, y, l, r, rfl⟩ := short.sibling
    rw [addr_join]
    exact ((represents_turn e).mp tree).addr_join_ne
  unfold CMap.fixBlack
  rw [if_neg (by decide), if_pos rfl]
  refine (attachBlank_does tree up (fun _ => sibling) free nonzero).bind fun m₁ tree₁ => ?_
  refine (deleteFixup_does tree₁ (short.leaf fresh) nonzero _ ?_ enough).bind
    fun m₂ ⟨T, tree₂, redBlack, walk₂⟩ => ?_
  · obtain ⟨e, c', z, u⟩ := f
    rintro g same
    cases same
    cases e <;> rfl
  · have inside : .inl fresh ∈ T.walk := by
      rw [walk₂, walk_plug]
      exact List.mem_append_left _ (List.mem_append_right _ (List.mem_singleton_self _))
    obtain ⟨ctx', rfl⟩ := exists_plug_leaf inside
    rw [represents_plug] at tree₂
    have elsewhere (side : List (Address ⊕ MapItem K V))
        (part : side ⊆ (plug (f :: ctx) (.leaf 0 : MapTree K V)).walk) : .inl fresh ∉ side :=
      fun member => nonzero (nulls fresh (part member))
    have walk := walk_plug_leaf walk₂.symm
      (elsewhere _ (by rw [walk_plug, List.append_assoc]; exact List.subset_append_left ..))
      (elsewhere _ (by rw [walk_plug]; exact List.subset_append_right ..)) 0
    cases ctx' with
    | nil =>
        have size := count_plug (f :: ctx) (.leaf fresh)
        rw [← count_eq_of_walk walk₂, List.length_cons] at size
        exact absurd size (by simp [plug, count])
    | cons g ctx' =>
        refine (detachBlank_does tree₂ nonzero).bind fun m₃ tree₃ => ?_
        refine (deleteNode_does tree₃).mono fun m₄ tree₄ => ?_
        rw [walk]
        exact tree₄.isRedBlack ((redBlack_plug _).mp (redBlack_plug_leaf redBlack))

/-- The fix-up, when a node with at most one child left the tree. -/
theorem fixBlack_does {b fresh target : Address} {n : MapNode K V}
    (tree : Represents m ctx s ({(b, n)} + rest)) (up : n.up = above ctx)
    (fits : Fits ctx (join d c y s (.leaf 0))) (nulls : Nulls (plug ctx s).walk)
    (alone : addr s = 0 → target = b ∧ ctx ≠ []) (free : m.heap fresh = none) (nonzero : fresh ≠ 0)
    (enough : ctx.length < fuel) :
    Does (CMap.fixBlack fuel fresh target (addr s) (above ctx) (isLeft ctx) c) m ()
      (IsRedBlack (plug ctx s).walk ({(b, n)} + rest)) := by
  cases c with
  | red =>
      unfold CMap.fixBlack
      rw [if_pos rfl]
      exact .pure () (tree.isRedBlack fits.of_red)
  | black =>
      by_cases null : addr s = 0
      · obtain ⟨rfl, below⟩ := alone null
        obtain rfl := tree.eq_leaf null
        cases ctx with
        | nil => exact absurd rfl below
        | cons f ctx => exact fixBlank_does tree up fits.short nulls free nonzero enough
      · unfold CMap.fixBlack
        rw [if_neg (by decide), if_neg null]
        refine deleteFixup_does tree fits.short null _ ?_ enough
        rintro g same
        cases ctx with
        | nil => cases same
        | cons f ctx =>
            cases same
            obtain ⟨e, c', z, u⟩ := g
            cases e <;> rfl

/-- Several steps up or down. -/
theorem represents_append (inner : MapPlace K V) :
    Represents m (inner ++ ctx) t rest ↔ Represents m ctx (plug inner t) rest := by
  induction inner generalizing t with
  | nil => rfl
  | cons f inner ih => exact (represents_cons f).trans ih

/-- The item of `y` comes to the node of `x`. -/
theorem moveItem_does {e : Side} {cy : Color} {up₀ a₀ : Address} (inner : MapPlace K V)
    (tree : Represents m (inner ++ ⟨d, c, x, w⟩ :: ctx) s (goneCell e cy y a₀ up₀ + rest)) :
    ∃ n, n.up = up₀ ∧ Does (CMap.moveItem x.addr y.addr) m () fun m' =>
      Represents m' (inner ++ ⟨d, c, ⟨x.addr, y.key, y.value⟩, w⟩ :: ctx) s ({(y.addr, n)} + rest) := by
  rw [represents_append, represents_cons, fill_mk] at tree
  obtain ⟨holds, head⟩ := tree
  rw [cells_join, addr_join, goneCell] at holds
  have cells₀ := holds.reorder ({(y.addr, .of e cy y a₀ 0 up₀)} +
    ({(x.addr, .of d c x (addr (plug inner s)) (addr w) (above ctx))} +
      (cells x.addr (plug inner s) + cells x.addr w + (placeCells ctx x.addr + rest)))) (by abel)
  refine ⟨{ (.of e cy y a₀ 0 up₀ : MapNode K V) with key := none, data := none }, MapNode.up_of .., ?_⟩
  unfold CMap.moveItem
  rw [if_neg cells₀.ne.symm]
  refine .load cells₀ ?_
  refine (store_does cells₀.swap _).bind fun m₁ ⟨cells₁, same₁⟩ => ?_
  refine (store_does cells₁.swap _).mono fun m₂ ⟨cells₂, same₂⟩ => ?_
  rw [represents_append, represents_cons, fill_mk]
  refine ⟨cells₂.of_eq ?_, by rw [same₂, same₁, head, addr_join, addr_join]⟩
  have moved : ({ (.of d c x (addr (plug inner s)) (addr w) (above ctx) : MapNode K V) with
      key := (MapNode.of e cy y a₀ 0 up₀ : MapNode K V).key
      data := (MapNode.of e cy y a₀ 0 up₀ : MapNode K V).data }) =
      .of d c ⟨x.addr, y.key, y.value⟩ (addr (plug inner s)) (addr w) (above ctx) := by
    cases d <;> cases e <;> rfl
  rw [cells_join, addr_join, ← moved]
  abel

end Unlink

section Erase

/-! ## The removal -/

/-- What a map holds. -/
def pairs (walk : List (Address ⊕ MapItem K V)) : List (K × V) := (items walk).map fun x => (x.key, x.value)

/-- The end of `c_map_erase`, when the node that left the tree is at `b`. -/
theorem eraseEnd_ok {b : Address} {n : MapNode K V} {walk : List (Address ⊕ MapItem K V)}
    (tree : IsRedBlack walk ({(b, n)} + rest) m) (nulls : Nulls walk) (enough : (items walk).length < fuel) :
    ∃ m', (do
        modify fun m => { m with size := m.size - 1 }
        CMap.deleteNode b
        CMap.calibrate fuel : CMap.Op K V Unit) m = .ok ((), m') ∧
      m'.size = m.size - 1 ∧ IsRedBlack walk rest m' := by
  obtain ⟨T, tree, redBlack, rfl⟩ := tree
  let m₁ : CMap K V := { m with size := m.size - 1 }
  have sizes : (modify fun m => { m with size := m.size - 1 } : CMap.Op K V Unit) m = .ok ((), m₁) := rfl
  obtain ⟨m₂, deletes, same, tree₂⟩ := deleteNode_does (m := m₁) ⟨tree.holds, tree.head⟩
  rw [length_items] at enough
  obtain ⟨least, most, calibrated, -⟩ := calibrate_ok fuel tree₂ nulls enough
  refine ⟨{ m₂ with itLeast := least, itMost := most }, ?_, same.size, T, ⟨tree₂.holds, tree₂.head⟩, redBlack,
    rfl⟩
  rw [run_bind sizes, run_bind deletes, calibrated]

/-- The middle of `c_map_erase`, when it is known which node `y` leaves the tree: it has at most one child. -/
theorem eraseFrom_ok (fuel : Nat) (node target : Address) (ctx' : MapPlace K V) {fresh : Address}
    (tree : Represents m ctx (join d c y s (.leaf 0)) rest)
    (moves : ∀ m₁, Represents m₁ ctx s (goneCell d c y (addr s) (above ctx) + rest) →
      ∃ n, n.up = above ctx ∧ Does (CMap.moveItem node y.addr) m₁ () fun m' =>
        Represents m' ctx' s ({(y.addr, n)} + rest))
    (place : above ctx' = above ctx ∧ isLeft ctx' = isLeft ctx) (fits : Fits ctx' (join d c y s (.leaf 0)))
    (nulls : Nulls (plug ctx' s).walk) (alone : addr s = 0 → target = y.addr ∧ ctx' ≠ [])
    (free : m.heap fresh = none) (nonzero : fresh ≠ 0) (enough : ctx'.length < fuel)
    (enough' : (items (plug ctx' s).walk).length < fuel) :
    ∃ m', (do
        let yNode ← CMap.load y.addr
        let x := if yNode.left = 0 then yNode.right else yNode.left
        let yIsLeft ← CMap.unlink y.addr x yNode.up
        CMap.moveItem node y.addr
        CMap.fixBlack fuel fresh target x yNode.up yIsLeft yNode.color
        modify fun m => { m with size := m.size - 1 }
        CMap.deleteNode y.addr
        CMap.calibrate fuel : CMap.Op K V Unit) m = .ok ((), m') ∧
      m'.size = m.size - 1 ∧ IsRedBlack (plug ctx' s).walk rest m' := by
  obtain ⟨others, holds⟩ := tree.node
  obtain ⟨m₁, ran₁, same₁, tree₁⟩ := unlink_does tree
  obtain ⟨n, up, m₂, ran₂, same₂, tree₂⟩ := moves m₁ tree₁
  have free₂ : m₂.heap fresh = none :=
    moveItem_keepsFree _ _ _ _ _ ran₂ fresh (unlink_keepsFree _ _ _ _ _ _ ran₁ fresh free)
  obtain ⟨m₃, ran₃, same₃, tree₃⟩ :=
    fixBlack_does tree₂ (up.trans place.1.symm) fits nulls alone free₂ nonzero enough
  rw [place.1, place.2] at ran₃
  obtain ⟨m₄, ran₄, size, tree₄⟩ := eraseEnd_ok tree₃ nulls enough'
  rw [addr_leaf] at holds
  refine ⟨m₄, ?_, ?_, tree₄⟩
  · rw [run_bind (load_ok holds)]
    simp only [MapNode.onlyChild_of, MapNode.up_of, MapNode.color_of]
    rw [run_bind ran₁, run_bind ran₂, run_bind ran₃, ran₄]
  · rw [size, same₃.size, same₂.size, same₁.size]

/-- The part of `c_map_erase` behind its first test. -/
theorem eraseNode_eq (fresh : Address) {n : MapNode K V} {target node y : Address}
    (loads : CMap.load node m = .ok (n, m)) (targets : CMap.eraseTarget fuel node n m = .ok (target, m))
    (some : target ≠ 0) (leaves : (if n.left = 0 ∨ n.right = 0 then node else target) = y)
    (notLast : ¬ (m.size = 1 ∧ node = m.head)) (prev : Address) :
    CMap.erase fuel fresh ⟨prev, node⟩ m = (do
        let yNode ← CMap.load y
        let x := if yNode.left = 0 then yNode.right else yNode.left
        let yIsLeft ← CMap.unlink y x yNode.up
        CMap.moveItem node y
        CMap.fixBlack fuel fresh target x yNode.up yIsLeft yNode.color
        modify fun m => { m with size := m.size - 1 }
        CMap.deleteNode y
        CMap.calibrate fuel : CMap.Op K V Unit) m := by
  have reads : (get : CMap.Op K V (CMap K V)) m = .ok (m, m) := rfl
  rw [CMap.erase, run_bind reads, if_neg notLast, run_bind loads, run_bind targets, if_neg some]
  simp only [leaves]

/-- A node with at most one child is erased. -/
theorem eraseOne_ok {fresh : Address} (tree : Represents m ctx (join d c x s (.leaf 0)) rest)
    (redBlack : RedBlack (plug ctx (join d c x s (.leaf 0))))
    (nulls : Nulls (plug ctx (join d c x s (.leaf 0))).walk)
    (notLast : ¬ (m.size = 1 ∧ x.addr = m.head)) (alone : addr s = 0 → ctx ≠ [])
    (free : m.heap fresh = none) (nonzero : fresh ≠ 0)
    (enough : (plug ctx (join d c x s (.leaf 0))).count < fuel)
    (prev : Address) :
    ∃ m', CMap.erase fuel fresh ⟨prev, x.addr⟩ m = .ok ((), m') ∧ m'.size = m.size - 1 ∧
      IsRedBlack (plug ctx s).walk rest m' ∧ Nulls (plug ctx s).walk := by
  obtain ⟨others, holds⟩ := tree.node
  rw [addr_leaf] at holds
  have targets : CMap.eraseTarget fuel x.addr (.of d c x (addr s) 0 (above ctx)) m =
      .ok (if addr s = 0 then x.addr else addr s, m) := by
    unfold CMap.eraseTarget
    by_cases null : addr s = 0
    · rw [if_pos null]
      cases d <;> simp [MapNode.of, null] <;> rfl
    · rw [if_neg null]
      cases d <;> simp [MapNode.of, null] <;> rfl
  have some : (if addr s = 0 then x.addr else addr s) ≠ 0 := by
    split
    · exact holds.ne_zero
    · assumption
  have child : (MapNode.of d c x (addr s) 0 (above ctx)).left = 0 ∨
      (MapNode.of d c x (addr s) 0 (above ctx)).right = 0 := by
    cases d
    · exact .inr rfl
    · exact .inl rfl
  have nulls' : Nulls (plug ctx s).walk := by
    rw [nulls_plug, nulls_join] at nulls
    exact (nulls_plug ctx s).mpr ⟨⟨nulls.1.1, nulls.1.2.1⟩, nulls.2⟩
  have size := count_plug ctx (join d c x s (.leaf 0))
  have fewer : (plug ctx s).count + 1 = (plug ctx (join d c x s (.leaf 0))).count := by
    rw [count_plug_eq, count_plug_eq, count_join]
    simp only [count]
    omega
  have fits := (redBlack_plug ctx).mp redBlack
  obtain ⟨m', ran, size, done⟩ := eraseFrom_ok fuel x.addr (if addr s = 0 then x.addr else addr s) ctx tree
    (fun m₁ tree₁ => ⟨_, MapNode.up_of .., by
      unfold CMap.moveItem
      rw [if_pos rfl]
      exact .pure () tree₁⟩) ⟨rfl, rfl⟩ fits nulls'
    (fun null => ⟨if_pos null, alone null⟩) free nonzero (by omega) (by rw [length_items]; omega)
  refine ⟨m', ?_, size, done, nulls'⟩
  rw [eraseNode_eq fresh (load_ok holds) targets some (if_pos child) notLast, ran]

/-- A node with two children gets the item of the last node in its left subtree, and that node leaves the
tree. -/
theorem eraseTwo_ok {l r : MapTree K V} {fresh : Address} (tree : Represents m ctx (join .left c x l r) rest)
    (redBlack : RedBlack (plug ctx (join .left c x l r))) (nulls : Nulls (plug ctx (join .left c x l r)).walk)
    (left : addr l ≠ 0) (right : addr r ≠ 0) (notLast : ¬ (m.size = 1 ∧ x.addr = m.head))
    (free : m.heap fresh = none) (nonzero : fresh ≠ 0) (enough : (plug ctx (join .left c x l r)).count < fuel)
    (prev : Address) :
    ∃ m' inner cy y s, CMap.erase fuel fresh ⟨prev, x.addr⟩ m = .ok ((), m') ∧ m'.size = m.size - 1 ∧
      l = plug inner (join .right cy y (.leaf 0) s) ∧ behind inner = [] ∧
      IsRedBlack (plug (inner ++ ⟨.left, c, ⟨x.addr, y.key, y.value⟩, r⟩ :: ctx) s).walk rest m' ∧
      Nulls (plug (inner ++ ⟨.left, c, ⟨x.addr, y.key, y.value⟩, r⟩ :: ctx) s).walk := by
  obtain ⟨others, holds⟩ := tree.node
  have size := count_plug ctx (join .left c x l r)
  rw [count_join] at size
  have nullsLeft : Nulls l.walk := ((nulls_join .left).mp nulls.of_plug).1
  obtain ⟨inner, cy, y, s, rfl, sides, slides⟩ := slide_ok .right fuel (tree.down .left) nullsLeft left
    (by omega)
  have size' := count_plug inner (join .right cy y (.leaf 0) s)
  have tree' : Represents m (inner ++ ⟨.left, c, x, r⟩ :: ctx) (join .left cy y s (.leaf 0)) rest := by
    rw [represents_append, represents_cons, ← join_other]
    exact tree
  have fits : Fits (inner ++ ⟨.left, c, ⟨x.addr, y.key, y.value⟩, r⟩ :: ctx) (join .left cy y s (.leaf 0)) := by
    rw [fits_item (y := x), ← redBlack_plug, plug_append, ← join_other]
    exact redBlack
  have nulls' : Nulls (plug (inner ++ ⟨.left, c, ⟨x.addr, y.key, y.value⟩, r⟩ :: ctx) s).walk := by
    rw [nulls_plug, nulls_join, nulls_plug, nulls_join] at nulls
    obtain ⟨⟨front, ⟨⟨inside, -, child⟩, last⟩, other⟩, back⟩ := nulls
    rw [plug_append, plug, fill_mk, nulls_plug, nulls_join, nulls_plug]
    exact ⟨⟨front, ⟨⟨inside, child⟩, last⟩, other⟩, back⟩
  have fewer : (plug (inner ++ ⟨.left, c, ⟨x.addr, y.key, y.value⟩, r⟩ :: ctx) s).count < fuel := by
    rw [count_plug_eq, count_join, count_plug_eq, count_join] at enough
    rw [plug_append, plug, fill_mk, count_plug_eq, count_join, count_plug_eq]
    omega
  have targets : CMap.eraseTarget fuel x.addr
      (.of .left c x (addr (plug inner (join .right cy y (.leaf 0) s))) (addr r) (above ctx)) m =
        .ok (y.addr, m) := by
    unfold CMap.eraseTarget
    rw [if_pos ⟨left, right⟩]
    exact slides
  obtain ⟨m', ran, less, done⟩ := eraseFrom_ok fuel x.addr y.addr
    (inner ++ ⟨.left, c, ⟨x.addr, y.key, y.value⟩, r⟩ :: ctx) tree' (fun m₁ tree₁ => moveItem_does inner tree₁)
    (above_item inner rfl) fits nulls' (fun _ => ⟨rfl, by simp⟩) free nonzero
    (Nat.lt_of_le_of_lt (Nat.le_add_right ..) (Nat.lt_of_le_of_lt (count_plug _ s) fewer))
    (by rwa [length_items])
  refine ⟨m', inner, cy, y, s, ?_, less, rfl, behind_eq_nil sides, done, nulls'⟩
  rw [eraseNode_eq fresh (load_ok holds) targets tree'.addr_join_ne (if_neg ?_) notLast, ran]
  rintro (none | none)
  · exact left none
  · exact right none

/-- The last node is erased. -/
theorem eraseLast_ok (fuel : Nat) (fresh : Address)
    (tree : Represents m [] (join d c x (.leaf 0) (.leaf 0)) rest)
    (last : m.size = 1) (prev : Address) :
    ∃ m', CMap.erase fuel fresh ⟨prev, x.addr⟩ m = .ok ((), m') ∧ m'.size = m.size - 1 ∧
      IsRedBlack [.inl 0] rest m' := by
  have root : x.addr = m.head := by
    rw [tree.head, rootOf, addr_join]
  have reads : (get : CMap.Op K V (CMap K V)) m = .ok (m, m) := rfl
  obtain ⟨holds, head⟩ := tree
  rw [cells_join, cells_leaf_zero, add_zero, add_zero, placeCells, zero_add] at holds
  have deletes : CMap.deleteNode x.addr m =
      .ok ((), { m with heap := Function.update m.heap x.addr none }) := by
    unfold CMap.deleteNode
    rw [run_bind (load_ok holds)]
    rfl
  refine ⟨{ m with heap := Function.update m.heap x.addr none, head := 0, size := m.size - 1 }, ?_, rfl,
    .leaf 0, ?_, ⟨rfl, 0, .leaf 0⟩, rfl⟩
  · rw [CMap.erase, run_bind reads, if_pos ⟨last, root⟩, run_bind deletes]
    rfl
  · refine ⟨holds.free.of_eq ?_, rfl⟩
    rw [cells_leaf_zero, placeCells, zero_add, zero_add]

/-- `c_map_erase` removes the item of the node, and only that. -/
theorem erase_ok {l r : MapTree K V} {fresh : Address}
    (tree : Represents m [] (plug ctx (join .left c x l r)) rest)
    (redBlack : RedBlack (plug ctx (join .left c x l r))) (nulls : Nulls (plug ctx (join .left c x l r)).walk)
    (counted : m.size = (plug ctx (join .left c x l r)).count) (free : m.heap fresh = none)
    (nonzero : fresh ≠ 0)
    (enough : (plug ctx (join .left c x l r)).count < fuel) (prev : Address) :
    ∃ m' w, CMap.erase fuel fresh ⟨prev, x.addr⟩ m = .ok ((), m') ∧ m'.size = m.size - 1 ∧
      IsRedBlack w rest m' ∧ Nulls w ∧ pairs w = pairs (before ctx ++ l.walk) ++ pairs (r.walk ++ behind ctx) := by
  have here := (represents_plug ctx _).mp tree
  have size := count_plug ctx (join .left c x l r)
  rw [count_join] at size
  have down := here.down .left
  have far := (represents_far .left).mpr here
  by_cases last : m.size = 1
  · -- there is no other node
    obtain rfl : ctx = [] := List.length_eq_zero_iff.mp (by omega)
    have leaf (t : MapTree K V) (none : t.count = 0) (nulls' : Nulls t.walk) : t = .leaf 0 := by
      cases t with
      | leaf a => rw [nulls'.leaf]
      | node => cases none
    obtain rfl := leaf l (by omega) ((nulls_join .left).mp nulls.of_plug).1
    obtain rfl := leaf r (by omega) ((nulls_join .left).mp nulls.of_plug).2
    obtain ⟨m', ran, less, done⟩ := eraseLast_ok fuel fresh tree last prev
    exact ⟨m', _, ran, less, done, fun a member => by simpa using member, rfl⟩
  · have notLast : ¬ (m.size = 1 ∧ x.addr = m.head) := fun both => last both.1
    have alone (leaves : l.count + r.count = 0) : ctx ≠ [] := by
      rintro rfl
      rw [plug, count_join] at counted
      omega
    by_cases left : addr l = 0
    · obtain rfl := down.eq_leaf left
      obtain ⟨m', ran, less, done, nulls'⟩ := eraseOne_ok (d := .right) here redBlack nulls notLast
        (fun none => alone (by rw [far.eq_leaf none]; rfl)) free nonzero enough prev
      exact ⟨m', _, ran, less, done, nulls', by simp [pairs, walk_plug, walk]⟩
    · by_cases right : addr r = 0
      · obtain rfl := far.eq_leaf right
        obtain ⟨m', ran, less, done, nulls'⟩ := eraseOne_ok here redBlack nulls notLast
          (fun none => absurd none left) free nonzero enough prev
        exact ⟨m', _, ran, less, done, nulls', by simp [pairs, walk_plug, walk]⟩
      · obtain ⟨m', inner, cy, y, s, ran, less, rfl, nothing, done, nulls'⟩ :=
          eraseTwo_ok here redBlack nulls left right notLast free nonzero enough prev
        refine ⟨m', _, ran, less, done, nulls', ?_⟩
        rw [plug_append, plug, fill_mk]
        simp [pairs, walk_plug, walk_join, walk, nothing]

end Erase

end Riscv2os.Emulator
