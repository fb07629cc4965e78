import Riscv2os.Emulator.SymbolTree

/-!
# Search in the symbol map

The loops that go down or up in the tree and change nothing: the first and the last node, the search for a
key, and the node before another one.
-/

namespace Riscv2os.Emulator

open Riscv2os.Std
open Riscv2os.Std.ColoredTree
open MapTree

variable {K V : Type} {m : CMap K V} {ctx : MapPlace K V} {c : Color}
  {x : MapItem K V} {t s : MapTree K V} {rest : Multiset (Address × MapNode K V)} {fuel : Nat}

/-- All leaves are `NULL`. -/
def Nulls (walk : List (Address ⊕ MapItem K V)) : Prop := ∀ a, .inl a ∈ walk → a = 0

section Nodes

theorem Nulls.leaf {a : Address} (nulls : Nulls (leaf a : MapTree K V).walk) : a = 0 :=
  nulls a (List.mem_singleton_self _)

theorem nulls_append (w₁ w₂ : List (Address ⊕ MapItem K V)) : Nulls (w₁ ++ w₂) ↔ Nulls w₁ ∧ Nulls w₂ := by
  simp only [Nulls, List.mem_append, or_imp, forall_and]

theorem nulls_plug (ctx : MapPlace K V) (t : MapTree K V) :
    Nulls (plug ctx t).walk ↔ (Nulls (before ctx) ∧ Nulls t.walk) ∧ Nulls (behind ctx) := by
  rw [walk_plug, nulls_append, nulls_append]

theorem Nulls.of_plug (nulls : Nulls (plug ctx t).walk) : Nulls t.walk := ((nulls_plug ctx t).mp nulls).1.2

theorem nulls_join (d : Side) : Nulls (join d c x t s).walk ↔ Nulls t.walk ∧ Nulls s.walk := by
  unfold Nulls
  rw [walk_join]
  cases d <;> simp only [List.mem_append, List.mem_cons, reduceCtorEq, false_or] <;> grind

/-- A subtree with an address is a node. -/
theorem Nulls.exists_join (d : Side) (nulls : Nulls t.walk) (some : addr t ≠ 0) :
    ∃ c x l r, t = join d c x l r := by
  refine ColoredTree.exists_join d fun a leaf => some ?_
  rw [leaf] at nulls ⊢
  exact nulls.leaf

variable [Inhabited K] [Inhabited V]

theorem Represents.addr_join_ne (tree : Represents m ctx (join d c x t s) rest) : x.addr ≠ 0 := by
  obtain ⟨others, holds⟩ := tree.node
  exact holds.ne_zero

/-- Without an address there is only a leaf. -/
theorem Represents.eq_leaf (tree : Represents m ctx t rest) (null : addr t = 0) : t = .leaf 0 := by
  cases t with
  | leaf a => rw [← null]; rfl
  | node c l x r => exact absurd null (tree.addr_join_ne (d := .left))

/-- Each cell of a tree is an item's. -/
theorem exists_item {up a : Address} {n : MapNode K V} (nulls : Nulls t.walk) (member : (a, n) ∈ cells up t) :
    ∃ x, .inr x ∈ t.walk ∧ x.addr = a ∧ n.key = some x.key := by
  induction t generalizing up with
  | leaf b =>
      rw [nulls.leaf, cells_leaf_zero] at member
      exact absurd member (Multiset.notMem_zero _)
  | node c l x r ihl ihr =>
      obtain ⟨nullsLeft, nullsRight⟩ := (nulls_join (c := c) (x := x) .left).mp nulls
      have parts : (node c l x r).walk = l.walk ++ .inr x :: r.walk := rfl
      rw [cells, Multiset.mem_add, Multiset.mem_add, Multiset.mem_singleton] at member
      rw [parts]
      rcases member with here | left | right
      · cases here
        exact ⟨x, List.mem_append_right _ List.mem_cons_self, rfl, MapNode.key_of ..⟩
      · obtain ⟨y, inside, known⟩ := ihl nullsLeft left
        exact ⟨y, List.mem_append_left _ inside, known⟩
      · obtain ⟨y, inside, known⟩ := ihr nullsRight right
        exact ⟨y, List.mem_append_right _ (List.mem_cons_of_mem _ inside), known⟩

end Nodes

variable [Inhabited K] [Inhabited V]

section Down

/-! ## Going down -/

/-- The subtree on side `d` of a node. -/
theorem Represents.down (d : Side) (tree : Represents m ctx (join d c x t s) rest) :
    Represents m (⟨d, c, x, s⟩ :: ctx) t rest :=
  (represents_cons _).mpr tree

/-- The last node on one side. -/
theorem slide_ok (d : Side) (fuel : Nat) (tree : Represents m ctx t rest) (nulls : Nulls t.walk)
    (some : addr t ≠ 0)
    (enough : t.count < fuel) :
    ∃ inner c y s, t = plug inner (join d c y (.leaf 0) s) ∧ (∀ f ∈ inner, f.side = d) ∧
      CMap.slide d fuel (addr t) m = .ok (y.addr, m) := by
  induction fuel generalizing t ctx with
  | zero => exact absurd enough (Nat.not_lt_zero _)
  | succ fuel ih =>
      obtain ⟨c, x, t', s, rfl⟩ := nulls.exists_join d some
      obtain ⟨others, holds⟩ := tree.node
      have step : CMap.slide d (fuel + 1) (addr (join d c x t' s)) m =
          if addr t' = 0 then .ok (x.addr, m) else CMap.slide d fuel (addr t') m := by
        rw [CMap.slide, addr_join, run_bind (load_ok holds), MapNode.child_of]
        split <;> rfl
      rw [step]
      by_cases last : addr t' = 0
      · have leaf : t' = .leaf 0 := (tree.down d).eq_leaf last
        rw [if_pos last]
        exact ⟨[], c, x, s, by rw [leaf]; rfl, fun f none => (List.not_mem_nil none).elim, rfl⟩
      · rw [if_neg last]
        rw [count_join] at enough
        obtain ⟨inner, c', y, s', parts, sides, ran⟩ :=
          ih (tree.down d) ((nulls_join d).mp nulls).1 last (by omega)
        refine ⟨inner ++ [⟨d, c, x, s⟩], c', y, s', ?_, ?_, ran⟩
        · rw [plug_append, ← parts]
          rfl
        · intro f member
          rw [List.mem_append, List.mem_singleton] at member
          rcases member with inside | rfl
          · exact sides f inside
          · rfl

/-- The first and the last node of a tree. -/
structure Extremes (walk : List (Address ⊕ MapItem K V)) (least most : Address) : Prop where
  least : least = ((items walk).head?.map MapItem.addr).getD 0
  most : most = ((items walk).getLast?.map MapItem.addr).getD 0

/-- `c_map_calibrate` changes nothing else. -/
theorem calibrate_ok (fuel : Nat) (tree : Represents m [] t rest) (nulls : Nulls t.walk)
    (enough : t.count < fuel) :
    ∃ least most, CMap.calibrate fuel m = .ok ((), { m with itLeast := least, itMost := most }) ∧
      Extremes t.walk least most := by
  have head : m.head = addr t := tree.head
  have reads : (get : CMap.Op K V (CMap K V)) m = .ok (m, m) := rfl
  rw [CMap.calibrate, run_bind reads]
  by_cases empty : addr t = 0
  · rw [if_pos (head.trans empty)]
    obtain rfl := tree.eq_leaf empty
    exact ⟨0, 0, rfl, rfl, rfl⟩
  · rw [if_neg fun null => empty (head.symm.trans null)]
    obtain ⟨left, c, y, s, parts, sides, ran⟩ := slide_ok .left fuel tree nulls empty enough
    obtain ⟨right, c', z, s', parts', sides', ran'⟩ := slide_ok .right fuel tree nulls empty enough
    refine ⟨y.addr, z.addr, ?_, ?_, ?_⟩
    · rw [← head] at ran ran'
      rw [run_bind ran, run_bind ran']
      rfl
    · rw [parts, walk_plug, before_eq_nil sides, walk_join]
      rfl
    · rw [parts', walk_plug, behind_eq_nil sides', walk_join, List.append_nil]
      simp [walk]

end Down

/-- What a comparison function has to do. -/
structure Compares [LinearOrder K] (comparator : K → K → Int) : Prop where
  lt_iff : ∀ a b, comparator a b < 0 ↔ a < b
  eq_iff : ∀ a b, comparator a b = 0 ↔ a = b

/-- The comparison function compares keys by their ranks. Keys of one rank are the same for it. -/
structure Ranks {κ : Type} [LinearOrder κ] (rank : K → κ) (comparator : K → K → Int) : Prop where
  lt_iff : ∀ a b, comparator a b < 0 ↔ rank a < rank b
  eq_iff : ∀ a b, comparator a b = 0 ↔ rank a = rank b

omit [Inhabited K] in
theorem Compares.ranks [LinearOrder K] {comparator : K → K → Int} (compares : Compares comparator) :
    Ranks id comparator :=
  ⟨compares.lt_iff, compares.eq_iff⟩

/-- Words, as unsigned numbers. -/
instance linearOrderWord : LinearOrder (BitVec 32) where
  le_refl := BitVec.le_refl
  le_trans _ _ _ := BitVec.le_trans
  lt_iff_le_not_ge a b := by
    rw [BitVec.not_le]
    exact ⟨fun less => ⟨BitVec.le_of_lt less, less⟩, And.right⟩
  le_antisymm _ _ := BitVec.le_antisymm
  le_total := BitVec.le_total
  toDecidableLE := inferInstance
  toDecidableEq := inferInstance

theorem cmpUint_compares : Compares CMap.cmpUint where
  lt_iff a b := by
    unfold CMap.cmpUint
    split
    · simp [*]
    · split <;> simp [*]
  eq_iff a b := by
    unfold CMap.cmpUint
    split
    · rename_i less
      simp [ne_of_lt less]
    · split
      · rename_i greater
        simp [(ne_of_lt greater).symm]
      · rename_i notLess notGreater
        simpa using le_antisymm (not_lt.mp notGreater) (not_lt.mp notLess)

section Up

/-! ## Going up -/

/-- The way up ends. -/
theorem prevUp_ok {f : Frame Address (MapItem K V)} (tree : Represents m (f :: ctx) t rest) (b : Address)
    (enough : ctx.length < fuel) : ∃ a, CMap.prevUp fuel b f.item.addr m = .ok (a, m) := by
  induction fuel generalizing f ctx t b with
  | zero => exact absurd enough (Nat.not_lt_zero _)
  | succ fuel ih =>
      obtain ⟨d, c, x, s⟩ := f
      have here := (represents_cons _).mp tree
      obtain ⟨others, holds⟩ := here.node
      rw [CMap.prevUp, run_bind (load_ok holds)]
      split
      · rename_i up
        cases ctx with
        | nil => exact absurd (by simp [above]) up.1
        | cons g ctx =>
            rw [MapNode.up_of]
            rw [List.length_cons] at enough
            exact ih here x.addr (by omega)
      · exact ⟨_, rfl⟩

/-- The node before another one is found without a fault. -/
theorem prev_ok {l r : MapTree K V} (fuel : Nat) (tree : Represents m ctx (join .left c x l r) rest)
    (nulls : Nulls l.walk)
    (enough : l.count < fuel) (enough' : ctx.length < fuel) : ∃ a, CMap.prev fuel x.addr m = .ok (a, m) := by
  obtain ⟨others, holds⟩ := tree.node
  have reads : (get : CMap.Op K V (CMap K V)) m = .ok (m, m) := rfl
  rw [CMap.prev, if_neg tree.addr_join_ne, run_bind reads]
  split
  · exact ⟨0, rfl⟩
  · rw [run_bind (load_ok holds)]
    split
    · rename_i left
      obtain ⟨inner, c', y, s, -, -, ran⟩ := slide_ok .right fuel (tree.down .left) nulls left enough
      exact ⟨y.addr, ran⟩
    · split
      · exact ⟨0, rfl⟩
      · rename_i below
        cases ctx with
        | nil => exact absurd rfl below
        | cons f ctx =>
            rw [List.length_cons] at enough'
            exact prevUp_ok tree x.addr (by omega)

end Up

section Search

/-! ## The search -/

variable [LinearOrder K] {comparator : K → K → Int} {key : K}

/-- The search for a key ends where the tree has it. -/
theorem search_ok (compares : Compares comparator) (tree : Represents m ctx t rest) (nulls : Nulls t.walk)
    (some : addr t ≠ 0) (enough : t.count < fuel) :
    CMap.search comparator key fuel (addr t) m = .ok (addr (locate MapItem.key key t ctx).2, m) := by
  induction fuel generalizing t ctx with
  | zero => exact absurd enough (Nat.not_lt_zero _)
  | succ fuel ih =>
      obtain ⟨c, x, l, r, rfl⟩ := nulls.exists_join .left some
      obtain ⟨others, holds⟩ := tree.node
      obtain ⟨nullsLeft, nullsRight⟩ := (nulls_join .left).mp nulls
      rw [count_join] at enough
      have keyOf : CMap.keyOf (.of .left c x (addr l) (addr r) (above ctx)) m = .ok (x.key, m) := rfl
      -- one step down
      have child (d : Side) (t' s : MapTree K V) (nulls' : Nulls t'.walk)
          (same : join .left c x l r = join d c x t' s)
          (fewer : t'.count < fuel) :
          (if addr t' = 0 then pure 0 else CMap.search comparator key fuel (addr t') : CMap.Op K V Address) m =
            .ok (addr (locate MapItem.key key t' (⟨d, c, x, s⟩ :: ctx)).2, m) := by
        rw [same] at tree
        by_cases last : addr t' = 0
        · rw [if_pos last, (tree.down d).eq_leaf last]
          rfl
        · rw [if_neg last]
          exact ih (tree.down d) nulls' last fewer
      rw [CMap.search, addr_join, run_bind (load_ok holds), run_bind keyOf]
      show _ = Except.ok (addr (locate MapItem.key key (.node c l x r) ctx).2, m)
      rw [locate]
      by_cases same : key = x.key
      · rw [if_pos ((compares.eq_iff key x.key).mpr same), if_pos same]
        rfl
      · rw [if_neg fun equal => same ((compares.eq_iff key x.key).mp equal), if_neg same]
        by_cases less : key < x.key
        · rw [if_pos ((compares.lt_iff key x.key).mpr less), if_pos less]
          exact child .left l r nullsLeft rfl (by omega)
        · rw [if_neg fun before => less ((compares.lt_iff key x.key).mp before), if_neg less]
          exact child .right r l nullsRight rfl (by omega)

/-- `c_map_find` finds the node with the key, or nothing. -/
theorem find_ok (compares : Compares comparator) (tree : Represents m [] t rest) (nulls : Nulls t.walk)
    (enough : t.count < fuel) (it : MapIter) (key : K) :
    ∃ p, CMap.find comparator fuel it key m = .ok (⟨p, addr (locate MapItem.key key t []).2⟩, m) := by
  have head : m.head = addr t := tree.head
  have reads : (get : CMap.Op K V (CMap K V)) m = .ok (m, m) := rfl
  rw [CMap.find, run_bind reads, head]
  by_cases empty : addr t = 0
  · rw [if_pos empty, tree.eq_leaf empty]
    exact ⟨0, rfl⟩
  · rw [if_neg empty, run_bind (search_ok compares tree nulls empty enough)]
    have whole : plug (locate MapItem.key key t []).1 (locate MapItem.key key t []).2 = t := plug_locate t []
    generalize locate MapItem.key key t [] = place at whole
    obtain ⟨ctx, t'⟩ := place
    subst whole
    cases t' with
    | leaf a =>
        obtain rfl : a = 0 := nulls.of_plug.leaf
        exact ⟨it.prev, rfl⟩
    | node c l x r =>
        have here : Represents m ctx (join .left c x l r) rest := (represents_plug ctx _).mp tree
        have size := count_plug ctx (.node c l x r)
        have bigger : (node c l x r).count = l.count + r.count + 1 := rfl
        obtain ⟨p, ran⟩ := prev_ok fuel here ((nulls_join .left).mp nulls.of_plug).1
          (by simp only at enough; omega) (by simp only at enough; omega)
        refine ⟨p, ?_⟩
        rw [if_neg (show addr (node c l x r) ≠ 0 from here.addr_join_ne)]
        exact (run_bind ran).trans rfl

end Search

end Riscv2os.Emulator
