import Mathlib.Data.Finset.Card
import Riscv2os.Emulator.SymbolErase

/-!
# The symbol map as a finite map

A session is a sequence of calls on a map that starts out empty. Beside the map it has the finite map that its
user counts on, and for the nodes that `c_map_find` returned the keys that were looked for. Each call takes a
map that holds a sorted list of pairs to one that does, unless it inserts a key that is there: then
`c_map_insert` has already counted the node that it frees.
-/

namespace Riscv2os.Emulator

open Riscv2os.Std
open Riscv2os.Std.ColoredTree
open MapTree

variable {K V : Type}

section Sessions

/-! ## Sessions -/

/-- A call. One that allocates has the address that `malloc` returns. -/
inductive MapCall (K V : Type) where
  | insert (fresh : Address) (key : K) (value : V)
  | find (it : MapIter) (key : K)
  | erase (fresh : Address) (it : MapIter)

/-- What a call returns. -/
inductive MapReply where
  | inserted (new : Bool)
  | found (it : MapIter)
  | erased
deriving DecidableEq, Repr

/-- A map, what its user takes it to hold, and which key the node at an address was found for, unless that key
has been erased since. -/
structure MapSession (K V : Type) where
  map : CMap K V
  content : K → Option V
  found : Address → Option K

variable [Inhabited K] [Inhabited V]

/-- The call on the map. -/
def MapCall.run (comparator : K → K → Int) (fuel : Nat) : MapCall K V → CMap.Op K V MapReply
  | .insert fresh key value => return .inserted (← CMap.insert comparator fuel fresh key value)
  | .find it key => return .found (← CMap.find comparator fuel it key)
  | .erase fresh it => do
      CMap.erase fuel fresh it
      return .erased

namespace MapSession

/-- Nothing is there yet. -/
def start : MapSession K V := ⟨CMap.new fun _ => none, fun _ => none, fun _ => none⟩

variable [DecidableEq K]

/-- What the user takes the map to hold after a call. The first value of a key stays until the key is erased. -/
def next (s : MapSession K V) (call : MapCall K V) (reply : MapReply) (map : CMap K V) : MapSession K V :=
  match call, reply with
  | .insert _ key value, _ =>
      { s with
        map := map
        content := if s.content key = none then Function.update s.content key (some value) else s.content }
  | .find _ key, .found it =>
      { s with
        map := map
        found := if CMap.atEnd it then s.found else Function.update s.found it.node (some key) }
  | .erase _ it, _ =>
      match s.found it.node with
      | some key =>
          { map := map
            content := Function.update s.content key none
            found := fun a => if s.found a = some key then none else s.found a }
      | none => { s with map := map }
  | _, _ => { s with map := map }

variable (comparator : K → K → Int) (fuel : Nat)

/-- One call, with its reply. -/
def step (s : MapSession K V) (call : MapCall K V) : Except MapFault (MapReply × MapSession K V) := do
  let (reply, map) ← call.run comparator fuel s.map
  return (reply, s.next call reply map)

/-- In a run of these calls, each one that is made meets a condition on the state before it. -/
def Always (condition : MapSession K V → MapCall K V → Prop) (s : MapSession K V) : List (MapCall K V) → Prop
  | [] => True
  | call :: calls =>
      condition s call ∧
        match s.step comparator fuel call with
        | .ok (_, s') => Always condition s' calls
        | .error _ => True

/-- The address that `malloc` returns is free, and a node that is erased was found, for a key that is still
there. -/
def Allowed (s : MapSession K V) : MapCall K V → Prop
  | .insert fresh _ _ => fresh ≠ 0 ∧ s.map.heap fresh = none
  | .find .. => True
  | .erase fresh it => (fresh ≠ 0 ∧ s.map.heap fresh = none) ∧ s.found it.node ≠ none

/-- A key that is inserted is not there, and a node that is erased still holds the key that it was found for. -/
def Apart (s : MapSession K V) : MapCall K V → Prop
  | .insert _ key _ => s.content key = none
  | .find .. => True
  | .erase _ it => (s.map.heap it.node).bind MapNode.key = s.found it.node

instance (s : MapSession K V) : (call : MapCall K V) → Decidable (s.Allowed call)
  | .insert fresh _ _ => inferInstanceAs (Decidable (fresh ≠ 0 ∧ s.map.heap fresh = none))
  | .find .. => .isTrue trivial
  | .erase fresh it =>
      inferInstanceAs (Decidable ((fresh ≠ 0 ∧ s.map.heap fresh = none) ∧ s.found it.node ≠ none))

instance (s : MapSession K V) : (call : MapCall K V) → Decidable (s.Apart call)
  | .insert _ key _ => inferInstanceAs (Decidable (s.content key = none))
  | .find .. => .isTrue trivial
  | .erase _ it => inferInstanceAs (Decidable ((s.map.heap it.node).bind MapNode.key = s.found it.node))

instance decidableAlways (condition : MapSession K V → MapCall K V → Prop)
    [∀ s call, Decidable (condition s call)]
    (s : MapSession K V) : (calls : List (MapCall K V)) → Decidable (s.Always comparator fuel condition calls)
  | [] => .isTrue trivial
  | call :: calls =>
      have : Decidable (match s.step comparator fuel call with
          | .ok (_, s') => Always comparator fuel condition s' calls
          | .error _ => True) :=
        match s.step comparator fuel call with
        | .ok (_, s') => decidableAlways condition s' calls
        | .error _ => .isTrue trivial
      inferInstanceAs (Decidable (_ ∧ _))

/-- What `c_map_find` has to return for a key. -/
def Finds (s : MapSession K V) (it : MapIter) (key : K) : Prop :=
  CMap.atEnd it = (s.content key).isNone ∧
    ∀ value, s.content key = some value → CMap.iterValue it s.map = .ok (value, s.map)

/-- The map is the finite map that the user takes it for. -/
structure Faithful (s : MapSession K V) : Prop where
  finds : ∀ it key, ∃ it', CMap.find comparator fuel it key s.map = .ok (it', s.map) ∧ s.Finds it' key
  counts : ∃ keys : Finset K, (∀ key, key ∈ keys ↔ s.content key ≠ none) ∧ s.map.size = keys.card
  empty_iff : CMap.empty s.map = true ↔ ∀ key, s.content key = none
  emptied : (∀ key, s.content key = none) → s.map.head = 0 ∧ ∀ a, s.map.heap a = none

/-- The reply of a finite map: a search and an insertion that is refused change nothing. -/
def Answers (s : MapSession K V) : MapCall K V → MapReply → CMap K V → Prop
  | .insert _ key _, .inserted new, map => new = (s.content key).isNone ∧ (new = false → map = s.map)
  | .find _ key, .found it, map => s.Finds it key ∧ map = s.map
  | .erase .., .erased, _ => True
  | _, _, _ => False

/-- The call returns, with the reply of a finite map, and leaves the right one. -/
def Correct (s : MapSession K V) (call : MapCall K V) : Prop :=
  ∃ reply s', s.step comparator fuel call = .ok (reply, s') ∧ s.Answers call reply s'.map ∧
    s'.Faithful comparator fuel

end MapSession

end Sessions

/-- A sequence after a call that fails. -/
theorem run_bind_error {α β : Type} {op : CMap.Op K V α} {next : α → CMap.Op K V β} {m : CMap K V}
    {e : MapFault}
    (failed : op m = .error e) : (op >>= next) m = .error e := by
  show (op m >>= fun r => next r.1 r.2) = _
  rw [failed]
  rfl

section Pairs

/-! ## The pairs of a map -/

variable [Inhabited K] [Inhabited V] {m : CMap K V} {up : Address} {t : MapTree K V}
  {walk : List (Address ⊕ MapItem K V)}
  {fuel : Nat}

omit [Inhabited K] [Inhabited V] in
theorem mem_pairs {key : K} {value : V} : (key, value) ∈ pairs walk ↔ ∃ a, .inr ⟨a, key, value⟩ ∈ walk := by
  unfold pairs
  rw [List.mem_map]
  constructor
  · rintro ⟨⟨a, key, value⟩, member, same⟩
    cases same
    exact ⟨a, mem_items.mp member⟩
  · rintro ⟨a, member⟩
    exact ⟨⟨a, key, value⟩, mem_items.mpr member, rfl⟩

omit [Inhabited K] [Inhabited V] in
theorem length_pairs (t : MapTree K V) : (pairs t.walk).length = t.count := by
  rw [pairs, List.length_map, length_items]

variable [LinearOrder K]

/-- The map holds these pairs, by ascending key, and nothing else is allocated. -/
structure CMap.Holds (m : CMap K V) (l : List (K × V)) : Prop where
  tree : ∃ t, Represents m [] t 0 ∧ RedBlack t ∧ Nulls t.walk ∧ pairs t.walk = l
  ascending : l.Pairwise fun p q => p.1 < q.1
  counted : m.size = l.length

omit [Inhabited K] [Inhabited V] in
theorem ordered_iff : Ordered MapItem.key walk ↔ (pairs walk).Pairwise fun p q => p.1 < q.1 := by
  rw [pairs, List.pairwise_map]
  rfl

omit [Inhabited K] [Inhabited V] in
/-- The pairs that stay when one is taken away. -/
theorem mem_without {l₁ l₂ : List (K × V)} {p q : K × V}
    (ascending : (l₁ ++ p :: l₂).Pairwise fun p q => p.1 < q.1) :
    q ∈ l₁ ++ l₂ ↔ q.1 ≠ p.1 ∧ q ∈ l₁ ++ p :: l₂ := by
  obtain ⟨-, behind, before⟩ := List.pairwise_append.mp ascending
  rw [List.mem_append, List.mem_append, List.mem_cons]
  constructor
  · rintro (left | right)
    · exact ⟨(before q left p List.mem_cons_self).ne, .inl left⟩
    · exact ⟨((List.pairwise_cons.mp behind).1 q right).ne', .inr (.inr right)⟩
  · rintro ⟨different, left | here | right⟩
    · exact .inl left
    · exact absurd (congrArg Prod.fst here) different
    · exact .inr right

/-- The map that `c_map_new` makes. -/
theorem holds_new : (CMap.new fun _ => (none : Option (MapNode K V))).Holds [] where
  tree := ⟨.leaf 0, ⟨.empty, rfl⟩, ⟨rfl, 0, .leaf 0⟩, fun a member => by simpa [walk] using member, rfl⟩
  ascending := .nil
  counted := rfl

/-- A tree with these pairs, one more or one less than before. -/
theorem IsRedBlack.holds {l : List (K × V)} (done : IsRedBlack walk 0 m) (nulls : Nulls walk)
    (same : pairs walk = l)
    (ascending : l.Pairwise fun p q => p.1 < q.1) (counted : m.size = l.length) : m.Holds l := by
  obtain ⟨t, tree, redBlack, rfl⟩ := done
  exact ⟨⟨t, tree, redBlack, nulls, same⟩, ascending, counted⟩

/-- A map without pairs is the one that `c_map_new` made, but for the first and the last node. -/
theorem CMap.Holds.nothing (holds : m.Holds []) : m.head = 0 ∧ ∀ a, m.heap a = none := by
  obtain ⟨⟨t, tree, -, nulls, none⟩, -, -⟩ := holds
  have empty : t.count = 0 := by
    rw [← length_pairs, none]
    rfl
  cases t with
  | node => cases empty
  | leaf b =>
      obtain rfl : b = 0 := nulls.leaf
      refine ⟨tree.head, fun a => by_contra fun some => ?_⟩
      have member := tree.holds.all a some
      rw [cells_leaf_zero, placeCells, add_zero, add_zero, Multiset.map_zero] at member
      exact absurd member (Multiset.notMem_zero a)

variable {l : List (K × V)} {comparator : K → K → Int} {key : K} {value : V}

omit [Inhabited K] [Inhabited V] in
/-- The keys of the pairs are distinct. -/
theorem nodup_keys (ascending : l.Pairwise fun p q => p.1 < q.1) : (l.map Prod.fst).Nodup :=
  List.pairwise_map.mpr (ascending.imp fun less => less.ne)

/-- What `c_map_find` returns, and its value. -/
theorem CMap.Holds.find (holds : m.Holds l) (compares : Compares comparator) (enough : l.length < fuel)
    (it : MapIter)
    (key : K) :
    ∃ it', CMap.find comparator fuel it key m = .ok (it', m) ∧
      (CMap.atEnd it' = true → ∀ value, (key, value) ∉ l) ∧
      (CMap.atEnd it' = false → ∃ value, (key, value) ∈ l ∧ CMap.iterValue it' m = .ok (value, m)) := by
  obtain ⟨⟨t, tree, redBlack, nulls, rfl⟩, ascending, counted⟩ := holds
  rw [length_pairs] at enough
  obtain ⟨p, ran⟩ := find_ok compares tree nulls enough it key
  refine ⟨_, ran, ?_⟩
  have whole : plug (locate MapItem.key key t []).1 (locate MapItem.key key t []).2 = t := plug_locate t []
  cases place : (locate MapItem.key key t []).2 with
  | leaf a =>
      rw [place] at whole
      have absent := not_mem_of_locate t (ordered_iff.mpr ascending) place
      have null : a = 0 := by
        rw [← whole] at nulls
        exact nulls.of_plug.leaf
      refine ⟨fun _ value member => ?_, fun found => ?_⟩
      · obtain ⟨b, member⟩ := mem_pairs.mp member
        exact absent _ member rfl
      · rw [null] at found
        cases found
  | node c l x r =>
      rw [place] at whole
      have here : x.key = key := key_of_locate t [] place
      have inside : Represents m (locate MapItem.key key t []).1 (join .left c x l r) 0 := by
        rw [← represents_plug]
        rw [← whole] at tree
        exact tree
      obtain ⟨others, cells⟩ := inside.node
      refine ⟨fun atEnd => absurd (by simpa [CMap.atEnd, addr] using atEnd) inside.addr_join_ne,
        fun _ => ⟨x.value, ?_, ?_⟩⟩
      · rw [mem_pairs, ← whole, walk_plug, ← here]
        exact ⟨x.addr, by simp [walk]⟩
      · unfold CMap.iterValue
        rw [show addr (node c l x r) = x.addr from rfl, run_bind (load_ok cells)]
        rfl

/-- A new key comes to its place between the others. -/
theorem CMap.Holds.insert {fresh : Address} (holds : m.Holds l) (compares : Compares comparator)
    (absent : ∀ value, (key, value) ∉ l) (free : m.heap fresh = none) (nonzero : fresh ≠ 0)
    (enough : l.length + 1 < fuel) (value : V) :
    ∃ m' l₁ l₂, CMap.insert comparator fuel fresh key value m = .ok (true, m') ∧ l = l₁ ++ l₂ ∧
      m'.Holds (l₁ ++ (key, value) :: l₂) := by
  obtain ⟨⟨t, tree, redBlack, nulls, rfl⟩, ascending, counted⟩ := holds
  rw [length_pairs] at enough counted
  let new : MapItem K V := ⟨fresh, key, value⟩
  obtain ⟨m', ran, size, inserted, -⟩ :=
    insert_ok compares tree redBlack nulls (show m.heap new.addr = none from free) nonzero enough
  have ordered := ordered_iff.mpr ascending
  have whole : plug (locate MapItem.key key t []).1 (locate MapItem.key key t []).2 = t := plug_locate t []
  have splits : Splits MapItem.key key (locate MapItem.key key t []).1 :=
    splits_locate t ordered (splits_nil key)
  have same {c : Color} {x : MapItem K V} {l r : MapTree K V}
      (found : (locate MapItem.key key t []).2 = node c l x r) :
      x.key = key :=
    key_of_locate t [] found
  generalize locate MapItem.key key t [] = place at *
  obtain ⟨ctx, t'⟩ := place
  subst whole
  cases t' with
  | leaf a =>
      obtain ⟨withNew, without⟩ := @items_single K V ctx a new
      have old : pairs (plug ctx (leaf a)).walk = pairs (before ctx) ++ pairs (behind ctx) := by
        unfold pairs
        rw [without, List.map_append]
      have more : pairs (plug ctx (single new)).walk =
          pairs (before ctx) ++ (key, value) :: pairs (behind ctx) := by
        unfold pairs
        rw [withNew, List.map_append]
        rfl
      rw [old]
      refine ⟨m', pairs (before ctx), pairs (behind ctx), ran, rfl,
        IsRedBlack.holds inserted (nulls_single ctx nulls _) more ?_ ?_⟩
      · rw [← more, ← ordered_iff]
        exact ordered.insert splits
      · rw [size, counted, ← length_pairs, old, List.length_append, List.length_append, List.length_cons]
        omega
  | node c l x r =>
      have here : x.key = key := same rfl
      refine absurd (mem_pairs.mpr ⟨x.addr, ?_⟩) (absent x.value)
      rw [walk_plug, ← here]
      simp [walk]

/-- A key that is there: the size goes up all the same. -/
theorem CMap.Holds.insert_present {fresh : Address} (holds : m.Holds l) (compares : Compares comparator)
    {known : V}
    (present : (key, known) ∈ l) (free : m.heap fresh = none) (nonzero : fresh ≠ 0)
    (enough : l.length + 1 < fuel)
    (value : V) :
    ∃ m', CMap.insert comparator fuel fresh key value m = .ok (false, m') ∧ m'.size = l.length + 1 := by
  obtain ⟨⟨t, tree, redBlack, nulls, rfl⟩, ascending, counted⟩ := holds
  rw [length_pairs] at enough
  let new : MapItem K V := ⟨fresh, key, value⟩
  obtain ⟨m', ran, size, -, -⟩ :=
    insert_ok compares tree redBlack nulls (show m.heap new.addr = none from free) nonzero enough
  refine ⟨m', ?_, by rw [size, counted]⟩
  rw [ran]
  cases place : (locate MapItem.key key t []).2 with
  | leaf a =>
      obtain ⟨b, member⟩ := mem_pairs.mp present
      exact absurd rfl (not_mem_of_locate t (ordered_iff.mpr ascending) place _ member)
  | node c l x r => rfl

/-- The node of a pair that the map holds is erased: the others stay. -/
theorem CMap.Holds.erase {a fresh : Address} {n : MapNode K V} (holds : m.Holds l) (node : m.heap a = some n)
    (free : m.heap fresh = none) (nonzero : fresh ≠ 0) (enough : l.length < fuel) (prev : Address) :
    ∃ m' l₁ l₂ key value, CMap.erase fuel fresh ⟨prev, a⟩ m = .ok ((), m') ∧ n.key = some key ∧
      l = l₁ ++ (key, value) :: l₂ ∧ m'.Holds (l₁ ++ l₂) := by
  obtain ⟨⟨t, tree, redBlack, nulls, rfl⟩, ascending, counted⟩ := holds
  rw [length_pairs] at enough counted
  obtain ⟨⟨a', n'⟩, member, rfl⟩ := Multiset.mem_map.mp (tree.holds.all a fun none => by
    rw [node] at none
    cases none)
  rw [placeCells, zero_add, add_zero] at member
  obtain ⟨x, inside, rfl, hasKey⟩ := exists_item nulls member
  have content : m.heap x.addr = some n' := tree.holds.content (x.addr, n') (by
    rw [placeCells, zero_add, add_zero]
    exact member)
  obtain rfl : n = n' := Option.some.inj (node.symm.trans content)
  obtain ⟨ctx, c, l, r, rfl⟩ := exists_plug_node inside
  obtain ⟨m', w, ran, size, done, nulls', rest⟩ :=
    erase_ok (c := c) (x := x) (l := l) (r := r) tree redBlack nulls counted free nonzero enough prev
  have old : pairs (plug ctx (.node c l x r)).walk =
      pairs (before ctx ++ l.walk) ++ (x.key, x.value) :: pairs (r.walk ++ behind ctx) := by
    simp [pairs, walk_plug, walk]
  rw [old] at ascending ⊢
  refine ⟨m', _, _, x.key, x.value, ran, hasKey, rfl, done.holds nulls' rest ?_ ?_⟩
  · exact ascending.sublist (List.Sublist.append_left (List.sublist_cons_self ..) _)
  · rw [size, counted, ← length_pairs, old, List.length_append, List.length_append, List.length_cons]
    omega

omit [LinearOrder K] in
/-- A node that is not allocated cannot be erased. -/
theorem erase_fails {a : Address} (gone : m.heap a = none) (fuel : Nat) (fresh prev : Address) :
    ∃ e, CMap.erase fuel fresh ⟨prev, a⟩ m = .error e := by
  have reads : (get : CMap.Op K V (CMap K V)) m = .ok (m, m) := rfl
  obtain ⟨e, fails⟩ : ∃ e, CMap.load a m = .error e := by
    unfold CMap.load
    rw [gone]
    split
    · exact ⟨.null, rfl⟩
    · exact ⟨.dangling, rfl⟩
  refine ⟨e, ?_⟩
  rw [CMap.erase, run_bind reads]
  split
  · exact run_bind_error (run_bind_error fails)
  · exact run_bind_error fails

end Pairs

section Runs

/-! ## Runs -/

variable [Inhabited K] [Inhabited V] [LinearOrder K] {comparator : K → K → Int} {fuel : Nat}

namespace MapSession

variable {s : MapSession K V} {l : List (K × V)} {call : MapCall K V}

/-- The map holds what its user takes it to hold. -/
structure Valid (s : MapSession K V) (l : List (K × V)) : Prop where
  holds : s.map.Holds l
  content : ∀ key value, s.content key = some value ↔ (key, value) ∈ l

theorem valid_start : (start : MapSession K V).Valid [] where
  holds := holds_new
  content key value := by simp [start]

theorem Valid.content_none (valid : s.Valid l) (key : K) :
    s.content key = none ↔ ∀ value, (key, value) ∉ l := by
  rw [Option.eq_none_iff_forall_ne_some]
  exact forall_congr' fun value => not_congr (valid.content key value)

theorem Valid.eq_nil_iff (valid : s.Valid l) : (∀ key, s.content key = none) ↔ l = [] := by
  rw [List.eq_nil_iff_forall_not_mem]
  constructor
  · rintro none ⟨key, value⟩
    exact (valid.content_none key).mp (none key) value
  · intro nothing key
    exact (valid.content_none key).mpr fun value => nothing (key, value)

/-- The key that is looked for is found with its value. -/
theorem Valid.find (valid : s.Valid l) (compares : Compares comparator) (enough : l.length < fuel)
    (it : MapIter)
    (key : K) : ∃ it', CMap.find comparator fuel it key s.map = .ok (it', s.map) ∧ s.Finds it' key := by
  obtain ⟨it', ran, absent, present⟩ := valid.holds.find compares enough it key
  refine ⟨it', ran, ?_⟩
  cases ended : CMap.atEnd it' with
  | true =>
      have none : s.content key = none := (valid.content_none key).mpr (absent ended)
      refine ⟨?_, fun value some => ?_⟩
      · rw [ended, none]
        rfl
      · rw [none] at some
        cases some
  | false =>
      obtain ⟨value, member, reads⟩ := present ended
      have some : s.content key = some value := (valid.content key value).mpr member
      refine ⟨?_, fun value' some' => ?_⟩
      · rw [ended, some]
        rfl
      · rw [some] at some'
        cases some'
        exact reads

/-- A map that holds what its user takes it to hold works as a finite map. -/
theorem Valid.faithful (valid : s.Valid l) (compares : Compares comparator) (enough : l.length < fuel) :
    s.Faithful comparator fuel where
  finds it key := valid.find compares enough it key
  counts := by
    refine ⟨(l.map Prod.fst).toFinset, fun key => ?_, ?_⟩
    · rw [Ne, valid.content_none key, List.mem_toFinset, List.mem_map]
      constructor
      · rintro ⟨⟨key, value⟩, member, rfl⟩ none
        exact none value member
      · intro some
        obtain ⟨value, member⟩ := not_forall_not.mp some
        exact ⟨(key, value), member, rfl⟩
    · rw [List.toFinset_card_of_nodup (nodup_keys valid.holds.ascending), List.length_map, valid.holds.counted]
  empty_iff := by
    rw [valid.eq_nil_iff, CMap.empty, valid.holds.counted, beq_iff_eq, List.length_eq_zero_iff]
  emptied none := by
    have holds := valid.holds
    rw [valid.eq_nil_iff.mp none] at holds
    exact holds.nothing

/-- What a call has to do for a run to go on as a finite map. -/
def Continues (comparator : K → K → Int) (fuel : Nat) (s : MapSession K V) (l : List (K × V))
    (call : MapCall K V) : Prop :=
  ∃ reply s' l', s.step comparator fuel call = .ok (reply, s') ∧ s.Answers call reply s'.map ∧ s'.Valid l' ∧
    l'.length ≤ l.length + 1

theorem step_ok {reply : MapReply} {map : CMap K V} (ran : call.run comparator fuel s.map = .ok (reply, map)) :
    s.step comparator fuel call = .ok (reply, s.next call reply map) := by
  unfold step
  rw [ran]
  rfl

theorem step_error {e : MapFault} (failed : call.run comparator fuel s.map = .error e) :
    s.step comparator fuel call = .error e := by
  unfold step
  rw [failed]
  rfl

/-- A key that is not there is inserted. -/
theorem Valid.insert (valid : s.Valid l) (compares : Compares comparator) {fresh : Address} {key : K}
    (absent : s.content key = none) (nonzero : fresh ≠ 0) (free : s.map.heap fresh = none)
    (enough : l.length + 1 < fuel) (value : V) : s.Continues comparator fuel l (.insert fresh key value) := by
  have new := (valid.content_none key).mp absent
  obtain ⟨m', l₁, l₂, ran, rfl, holds⟩ := valid.holds.insert compares new free nonzero enough value
  have runs : (MapCall.insert fresh key value).run comparator fuel s.map = .ok (.inserted true, m') :=
    run_bind ran
  refine ⟨_, _, _, step_ok runs, ⟨?_, fun refused => by cases refused⟩, ⟨holds, fun key' value' => ?_⟩, ?_⟩
  · rw [absent]
    rfl
  · have old := valid.content key' value'
    simp only [next, if_pos absent, Function.update_apply]
    rw [List.mem_append] at old
    rw [List.mem_append, List.mem_cons]
    by_cases same : key' = key
    · obtain rfl := same
      have others := new value'
      rw [List.mem_append, not_or] at others
      rw [if_pos rfl]
      constructor
      · rintro ⟨⟩
        exact .inr (.inl rfl)
      · rintro (left | here | right)
        · exact absurd left others.1
        · cases here
          rfl
        · exact absurd right others.2
    · have different : (key', value') ≠ (key, value) := fun equal => same (congrArg Prod.fst equal)
      rw [if_neg same, old, or_iff_right (a := (key', value') = _) different]
  · simp only [List.length_append, List.length_cons]
    omega

/-- A key that is there is inserted again: the size is wrong from then on. -/
theorem Valid.not_insert (valid : s.Valid l) (compares : Compares comparator) {fresh : Address} {key : K}
    (present : s.content key ≠ none) (nonzero : fresh ≠ 0) (free : s.map.heap fresh = none)
    (enough : l.length + 1 < fuel) (value : V) : ¬ s.Correct comparator fuel (.insert fresh key value) := by
  obtain ⟨known, some⟩ := Option.ne_none_iff_exists'.mp present
  obtain ⟨m', ran, size⟩ :=
    valid.holds.insert_present compares ((valid.content key known).mp some) free nonzero enough value
  have runs : (MapCall.insert fresh key value).run comparator fuel s.map = .ok (.inserted false, m') :=
    run_bind ran
  rintro ⟨reply, s', stepped, answers, -⟩
  cases (step_ok runs).symm.trans stepped
  have unchanged : m' = s.map := answers.2 rfl
  rw [unchanged, valid.holds.counted] at size
  omega

/-- A search. -/
theorem Valid.search (valid : s.Valid l) (compares : Compares comparator) (enough : l.length < fuel)
    (it : MapIter)
    (key : K) : s.Continues comparator fuel l (.find it key) := by
  obtain ⟨it', ran, finds⟩ := valid.find compares enough it key
  have runs : (MapCall.find it key : MapCall K V).run comparator fuel s.map = .ok (.found it', s.map) :=
    run_bind ran
  exact ⟨_, _, l, step_ok runs, ⟨finds, rfl⟩, ⟨valid.holds, valid.content⟩, Nat.le_succ _⟩

/-- The pairs of the map after the node of a key is erased, and before that. -/
theorem Valid.erases (valid : s.Valid l) (comparator : K → K → Int) {fresh : Address} {it : MapIter}
    {n : MapNode K V} (nonzero : fresh ≠ 0)
    (free : s.map.heap fresh = none) (node : s.map.heap it.node = some n) (enough : l.length < fuel) :
    ∃ m' l₁ l₂ key value, (MapCall.erase fresh it).run comparator fuel s.map = .ok (.erased, m') ∧
      n.key = some key ∧ l = l₁ ++ (key, value) :: l₂ ∧ m'.Holds (l₁ ++ l₂) := by
  obtain ⟨m', l₁, l₂, key, value, ran, known, same, holds⟩ := valid.holds.erase node free nonzero enough it.prev
  exact ⟨m', l₁, l₂, key, value, run_bind ran, known, same, holds⟩

/-- The node that was found for a key, and still holds it, is erased. -/
theorem Valid.erase (valid : s.Valid l) {fresh : Address} {it : MapIter} (nonzero : fresh ≠ 0)
    (free : s.map.heap fresh = none) (found : s.found it.node ≠ none)
    (kept : (s.map.heap it.node).bind MapNode.key = s.found it.node) (enough : l.length < fuel) :
    s.Continues comparator fuel l (.erase fresh it) := by
  obtain ⟨key, known⟩ := Option.ne_none_iff_exists'.mp found
  rw [known] at kept
  obtain ⟨n, node, hasKey⟩ := Option.bind_eq_some_iff.mp kept
  obtain ⟨m', l₁, l₂, key', value, runs, hasKey', rfl, holds⟩ :=
    valid.erases comparator nonzero free node enough
  obtain rfl : key = key' := Option.some.inj (hasKey.symm.trans hasKey')
  refine ⟨_, _, l₁ ++ l₂, step_ok runs, trivial, ⟨?_, fun other value' => ?_⟩, ?_⟩
  · simp only [next, known]
    exact holds
  · simp only [next, known, Function.update_apply]
    rw [mem_without valid.holds.ascending, ← valid.content]
    by_cases same : other = key
    · simp [same]
    · simp [same]
  · simp only [List.length_append, List.length_cons]
    omega

/-- A node that holds another key now, or is no longer there, is erased: another pair goes, or none. -/
theorem Valid.not_erase (valid : s.Valid l) (compares : Compares comparator) {fresh : Address} {it : MapIter}
    (nonzero : fresh ≠ 0) (free : s.map.heap fresh = none) (found : s.found it.node ≠ none)
    (lost : (s.map.heap it.node).bind MapNode.key ≠ s.found it.node) (enough : l.length < fuel) :
    ¬ s.Correct comparator fuel (.erase fresh it) := by
  rintro ⟨reply, s', stepped, -, faithful⟩
  cases node : s.map.heap it.node with
  | none =>
      obtain ⟨e, fails⟩ := erase_fails node fuel fresh it.prev
      have runs : (MapCall.erase fresh it).run comparator fuel s.map = .error e := run_bind_error fails
      cases (step_error runs).symm.trans stepped
  | some n =>
      obtain ⟨key, known⟩ := Option.ne_none_iff_exists'.mp found
      obtain ⟨m', l₁, l₂, key', value, runs, hasKey, rfl, holds⟩ :=
        valid.erases comparator nonzero free node enough
      have different : key' ≠ key := by
        rintro rfl
        exact lost (by rw [node, known]; exact hasKey)
      cases (step_ok runs).symm.trans stepped
      simp only [next, known] at faithful
      obtain ⟨it', ran, ends, -⟩ := faithful.finds it key'
      have present : s.content key' = some value :=
        (valid.content key' value).mpr (List.mem_append_right _ List.mem_cons_self)
      simp only [Function.update_of_ne different, present] at ends ran
      have fewer : (l₁ ++ l₂).length < fuel := by
        simp only [List.length_append, List.length_cons] at enough ⊢
        omega
      obtain ⟨it'', ran', -, finds⟩ := holds.find compares fewer it key'
      cases ran.symm.trans ran'
      obtain ⟨value', member, -⟩ := finds ends
      exact ((mem_without valid.holds.ascending).mp member).1 rfl

/-- One call. -/
theorem Valid.oneCall (valid : s.Valid l) (compares : Compares comparator) (call : MapCall K V)
    (enough : l.length + 1 < fuel) (allowed : s.Allowed call) :
    (s.Apart call → s.Continues comparator fuel l call) ∧
      (¬ s.Apart call → ¬ s.Correct comparator fuel call) := by
  cases call with
  | insert fresh key value =>
      obtain ⟨nonzero, free⟩ := allowed
      exact ⟨fun new => valid.insert compares new nonzero free enough value,
        fun present => valid.not_insert compares present nonzero free enough value⟩
  | find it key =>
      exact ⟨fun _ => valid.search compares (Nat.lt_of_succ_lt enough) it key,
        fun never => absurd trivial never⟩
  | erase fresh it =>
      obtain ⟨⟨nonzero, free⟩, found⟩ := allowed
      exact ⟨fun kept => valid.erase nonzero free found kept (Nat.lt_of_succ_lt enough),
        fun lost => valid.not_erase compares nonzero free found lost (Nat.lt_of_succ_lt enough)⟩

/-- The calls of a run from a map that holds what its user takes it to hold. -/
theorem Valid.always_iff (valid : s.Valid l) (compares : Compares comparator) (calls : List (MapCall K V))
    (enough : l.length + calls.length < fuel) (allowed : s.Always comparator fuel Allowed calls) :
    s.Always comparator fuel (Correct comparator fuel) calls ↔ s.Always comparator fuel Apart calls := by
  induction calls generalizing s l with
  | nil => exact Iff.rfl
  | cons call calls ih =>
      rw [List.length_cons] at enough
      obtain ⟨goes, fails⟩ := valid.oneCall compares call (show l.length + 1 < fuel by omega) allowed.1
      by_cases apart : s.Apart call
      · obtain ⟨reply, s', l', stepped, answers, valid', few⟩ := goes apart
        have correct : s.Correct comparator fuel call :=
          ⟨reply, s', stepped, answers, valid'.faithful compares (by omega)⟩
        rw [Always, stepped] at allowed
        rw [Always, Always, stepped, and_iff_right correct, and_iff_right apart]
        exact ih valid' (by omega) allowed.2
      · exact ⟨fun always => absurd always.1 (fails apart), fun always => absurd always.1 apart⟩

end MapSession

/-- Every call of a run of insertions, searches and removals of nodes that were found does what it would do on
a finite map, if and only if no key is inserted that is there, and each node that is erased holds the key that
it was found for. -/
theorem session_iff (compares : Compares comparator) (calls : List (MapCall K V)) (enough : calls.length < fuel)
    (allowed : MapSession.start.Always comparator fuel MapSession.Allowed calls) :
    MapSession.start.Always comparator fuel (MapSession.Correct comparator fuel) calls ↔
      MapSession.start.Always comparator fuel MapSession.Apart calls :=
  MapSession.valid_start.always_iff compares calls (by simpa using enough) allowed

/-- Three names, of which the middle one is in the root, found and erased, and the others found again. -/
theorem session_iff_three :
    MapSession.start.Always CMap.cmpUint 10 (MapSession.Correct CMap.cmpUint 10)
      [.insert 1 20 "b", .insert 2 10 "a", .insert 3 30 "c", .find ⟨0, 0⟩ 20, .erase 4 ⟨2, 1⟩, .find ⟨0, 0⟩ 10,
        .erase 4 ⟨0, 1⟩, .find ⟨0, 0⟩ 30, .erase 4 ⟨0, 3⟩] :=
  (session_iff cmpUint_compares _ (by decide) (by decide +kernel)).mpr (by decide +kernel)

/-- A name that is inserted twice is counted twice, and then `c_map_erase` reads through `NULL`. -/
theorem insert_twice_fails :
    MapSession.start.Always CMap.cmpUint 5 MapSession.Allowed
        [.insert 1 20 "b", .insert 2 20 "b2", .find ⟨0, 0⟩ 20, .erase 2 ⟨0, 1⟩] ∧
      ¬ MapSession.start.Always CMap.cmpUint 5 (MapSession.Correct CMap.cmpUint 5)
        [.insert 1 20 "b", .insert 2 20 "b2", .find ⟨0, 0⟩ 20, .erase 2 ⟨0, 1⟩] ∧
      (do
        let (_, s) ← MapSession.start.step CMap.cmpUint 5 (.insert 1 20 "b")
        let (_, s) ← s.step CMap.cmpUint 5 (.insert 2 20 "b2")
        let (_, s) ← s.step CMap.cmpUint 5 (.find ⟨0, 0⟩ 20)
        s.step CMap.cmpUint 5 (.erase 2 ⟨0, 1⟩)) = .error .null := by
  have allowed : MapSession.start.Always CMap.cmpUint 5 MapSession.Allowed
      [.insert 1 20 "b", .insert 2 20 "b2", .find ⟨0, 0⟩ 20, .erase 2 ⟨0, 1⟩] := by decide
  refine ⟨allowed, fun always => ?_, rfl⟩
  have apart := (MapSession.valid_start.always_iff cmpUint_compares _ (by decide) allowed).mp always
  exact absurd apart (by decide)

end Runs

end Riscv2os.Emulator
