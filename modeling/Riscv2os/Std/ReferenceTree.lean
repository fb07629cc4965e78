import Mathlib.Tactic

/-!
# Trees of references

`refs` gives the node that a node refers to at an index. A path of indices leads from the root to a node.
Which paths there are is given by a shape, which holds every path that it holds an extension of: the blocks
of a file are at paths of different lengths, the tables of a page table at those of at most two indices. A
tree is unshared when no node is at the end of two paths of its shape.
-/

namespace Riscv2os.Std

namespace RefTree

variable {N ι : Type} {refs refs' : N → ι → Option N} {root node new : N} {path other : List ι} {i : ι}
  {shape : Set (List ι)}

/-- A shape holds the beginnings of its paths. -/
def Closed (shape : Set (List ι)) : Prop := ∀ ⦃path : List ι⦄ ⦃i : ι⦄, path ++ [i] ∈ shape → path ∈ shape

/-- The node at the end of a path. -/
def descend (refs : N → ι → Option N) : N → List ι → Option N
  | node, [] => some node
  | node, i :: path => (refs node i).bind fun next => descend refs next path

/-- The nodes of a tree. -/
def nodes (refs : N → ι → Option N) (root : N) (shape : Set (List ι)) : Set N :=
  {node | ∃ path ∈ shape, descend refs root path = some node}

/-- No node is at the end of two paths. -/
def Unshared (refs : N → ι → Option N) (root : N) (shape : Set (List ι)) : Prop :=
  ∀ ⦃path⦄, path ∈ shape → ∀ ⦃path'⦄, path' ∈ shape → ∀ ⦃node⦄,
    descend refs root path = some node → descend refs root path' = some node → path = path'

theorem descend_append (path rest : List ι) :
    descend refs node (path ++ rest) = (descend refs node path).bind fun last => descend refs last rest := by
  induction path generalizing node with
  | nil => rfl
  | cons j path ih =>
      simp only [List.cons_append, descend, Option.bind_assoc]
      cases refs node j with
      | none => rfl
      | some next => exact ih

theorem descend_concat : descend refs node (path ++ [i]) = (descend refs node path).bind fun last => refs last i := by
  rw [descend_append]
  congr 1
  funext last
  cases found : refs last i <;> simp [descend, found]

/-- A node without references is the only one below it. -/
theorem descend_bare (bare : ∀ i, refs node i = none) {last : N} (found : descend refs node path = some last) :
    path = [] ∧ last = node := by
  cases path with
  | nil => exact ⟨rfl, (Option.some.inj found).symm⟩
  | cons i path =>
      rw [descend, bare, Option.bind_none] at found
      cases found

/-- Descents that see the same references lead to the same nodes. -/
theorem descend_congr (closed : Closed shape) (same : ∀ {before j last}, before ++ [j] ∈ shape →
    descend refs root before = some last → refs' last j = refs last j) (inShape : path ∈ shape) :
    descend refs' root path = descend refs root path := by
  induction path using List.reverseRecOn with
  | nil => rfl
  | append_singleton path i ih =>
      rw [descend_concat, descend_concat, ih (closed inShape)]
      cases found : descend refs root path with
      | none => rfl
      | some last => exact same inShape found

theorem Unshared.mono (unshared : Unshared refs root shape)
    (fewer : ∀ {path node}, path ∈ shape → descend refs' root path = some node →
      descend refs root path = some node) : Unshared refs' root shape :=
  fun _ inShape _ inShape' _ found found' =>
    unshared inShape inShape' (fewer inShape found) (fewer inShape' found')

/-- The references of two trees are the same but at the end of one path. -/
structure DiffersAt (refs refs' : N → ι → Option N) (root : N) (shape : Set (List ι)) (path : List ι) (i : ι)
    (node : N) : Prop where
  closed : Closed shape
  unshared : Unshared refs root shape
  above : descend refs root path = some node
  inShape : path ++ [i] ∈ shape
  kept : ∀ {before j last}, before ++ [j] ∈ shape → descend refs root before = some last →
    ¬ (last = node ∧ j = i) → refs' last j = refs last j

namespace DiffersAt

/-- Only one path ends at the place. -/
theorem here_iff (differs : DiffersAt refs refs' root shape path i node) {before : List ι} {j : ι} {last : N}
    (inShape : before ++ [j] ∈ shape) (found : descend refs root before = some last) :
    (last = node ∧ j = i) ↔ before ++ [j] = path ++ [i] := by
  constructor
  · rintro ⟨rfl, rfl⟩
    rw [differs.unshared (differs.closed inShape) (differs.closed differs.inShape) found differs.above]
  · intro same
    obtain ⟨rfl, tail⟩ := List.append_inj' same rfl
    exact ⟨Option.some.inj (found.symm.trans differs.above), List.singleton_injective tail⟩

/-- A path that does not go through the place leads where it led. -/
theorem descend_apart (differs : DiffersAt refs refs' root shape path i node) (inShape : other ∈ shape)
    (apart : ¬ path ++ [i] <+: other) : descend refs' root other = descend refs root other := by
  induction other using List.reverseRecOn with
  | nil => rfl
  | append_singleton before j ih =>
      have shorter : ¬ path ++ [i] <+: before := fun through => apart (through.trans (List.prefix_append ..))
      rw [descend_concat, descend_concat, ih (differs.closed inShape) shorter]
      cases found : descend refs root before with
      | none => rfl
      | some last =>
          refine differs.kept inShape found fun here => apart ?_
          rw [(differs.here_iff inShape found).mp here]

end DiffersAt

theorem DiffersAt.descend_above (differs : DiffersAt refs refs' root shape path i node) :
    descend refs' root (path ++ [i]) = refs' node i := by
  have above : descend refs' root path = some node := by
    rw [differs.descend_apart (differs.closed differs.inShape), differs.above]
    intro longer
    have lengths := longer.length_le
    simp at lengths
  rw [descend_concat, above, Option.bind_some]

/-- A reference is cut: the nodes below it are no longer reached. -/
theorem DiffersAt.descend_cut (differs : DiffersAt refs refs' root shape path i node) (cut : refs' node i = none)
    (through : path ++ [i] <+: other) : descend refs' root other = none := by
  obtain ⟨rest, rfl⟩ := through
  rw [descend_append (path ++ [i]), differs.descend_above, cut, Option.bind_none]

section Cut

variable (differs : DiffersAt refs refs' root shape path i node) (cut : refs' node i = none)
include differs cut

/-- All paths that are left lead where they led. -/
theorem DiffersAt.fewer (inShape : other ∈ shape) {last : N} (found : descend refs' root other = some last) :
    descend refs root other = some last ∧ ¬ path ++ [i] <+: other := by
  by_cases through : path ++ [i] <+: other
  · rw [differs.descend_cut cut through] at found
    cases found
  · rw [differs.descend_apart inShape through] at found
    exact ⟨found, through⟩

theorem DiffersAt.unshared_cut : Unshared refs' root shape :=
  differs.unshared.mono fun inShape found => (differs.fewer cut inShape found).1

/-- The nodes that are left are those that were not below the reference. -/
theorem DiffersAt.mem_nodes_cut {last : N} : last ∈ nodes refs' root shape ↔
    last ∈ nodes refs root shape ∧
      ¬ ∃ other ∈ shape, path ++ [i] <+: other ∧ descend refs root other = some last := by
  constructor
  · rintro ⟨other, inShape, found⟩
    obtain ⟨before, apart⟩ := differs.fewer cut inShape found
    refine ⟨⟨other, inShape, before⟩, ?_⟩
    rintro ⟨below, inShape', through, found'⟩
    exact apart (differs.unshared inShape inShape' before found' ▸ through)
  · rintro ⟨⟨other, inShape, found⟩, apart⟩
    refine ⟨other, inShape, ?_⟩
    rw [differs.descend_apart inShape fun through => apart ⟨other, inShape, through, found⟩, found]

end Cut

/-- A new node is linked where there was none, which refers to nothing. -/
structure Links (refs refs' : N → ι → Option N) (root : N) (shape : Set (List ι)) (path : List ι) (i : ι)
    (node new : N) : Prop extends DiffersAt refs refs' root shape path i node where
  vacant : refs node i = none
  fresh : new ∉ nodes refs root shape
  linked : refs' node i = some new
  empty : ∀ j, refs' new j = none

namespace Links

theorem descend (links : Links refs refs' root shape path i node new) (inShape : other ∈ shape) [DecidableEq ι] :
    RefTree.descend refs' root other =
      if other = path ++ [i] then some new else RefTree.descend refs root other := by
  by_cases through : path ++ [i] <+: other
  · obtain ⟨rest, rfl⟩ := through
    have nothing : RefTree.descend refs root (path ++ [i]) = none := by
      rw [descend_concat, links.above, Option.bind_some, links.vacant]
    rw [descend_append (path ++ [i]), descend_append (path ++ [i]), links.descend_above, links.linked, nothing]
    cases rest with
    | nil =>
        rw [List.append_nil, if_pos rfl]
        rfl
    | cons j rest =>
        -- Below the new node there is nothing, and there was nothing below the place before.
        rw [if_neg (by simp), Option.bind_some, RefTree.descend, links.empty]
        rfl
  · have apart : other ≠ path ++ [i] := fun same => through (same ▸ List.prefix_refl _)
    rw [if_neg apart, links.descend_apart inShape through]

/-- The nodes that were there are still there. -/
theorem grows (links : Links refs refs' root shape path i node new) [DecidableEq ι] (inShape : other ∈ shape)
    {last : N} (found : RefTree.descend refs root other = some last) :
    RefTree.descend refs' root other = some last := by
  rw [links.descend inShape, if_neg, found]
  rintro rfl
  rw [descend_concat, links.above, Option.bind_some, links.vacant] at found
  cases found

/-- The new node is the only one that is new. -/
theorem nodes_eq (links : Links refs refs' root shape path i node new) [DecidableEq ι] :
    nodes refs' root shape = insert new (nodes refs root shape) := by
  ext last
  constructor
  · rintro ⟨other, inShape, found⟩
    rw [links.descend inShape] at found
    split at found
    · cases found
      exact .inl rfl
    · exact .inr ⟨other, inShape, found⟩
  · rintro (rfl | ⟨other, inShape, found⟩)
    · exact ⟨_, links.inShape, by rw [links.descend links.inShape, if_pos rfl]⟩
    · exact ⟨other, inShape, links.grows inShape found⟩

/-- The tree stays unshared. -/
theorem unshared_after (links : Links refs refs' root shape path i node new) [DecidableEq ι] :
    Unshared refs' root shape := by
  intro first inShape second inShape' last found found'
  rw [links.descend inShape] at found
  rw [links.descend inShape'] at found'
  split at found <;> split at found'
  · next same same' => rw [same, same']
  · cases found
    exact absurd ⟨second, inShape', found'⟩ links.fresh
  · cases found'
    exact absurd ⟨first, inShape, found⟩ links.fresh
  · exact links.unshared inShape inShape' found found'

end Links

end RefTree

end Riscv2os.Std
