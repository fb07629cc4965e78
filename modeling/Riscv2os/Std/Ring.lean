import Mathlib.Tactic

/-!
# Doubly linked rings through a sentinel

`Links` is the pointer level of a doubly linked list: two total functions, as a
C program stores them in the `next` and `prev` fields of its nodes. `Ring`
says which list of nodes such pointers spell out around a sentinel, and the
lemmas below say what unlinking a node, pushing one behind the sentinel and the
two directions of traversal do to that list. `Rings` is a family of rings without a node in
common.
-/

namespace Riscv2os.Std

variable {α : Type}

/-- The `next` and `prev` fields of every node. -/
structure Links (α : Type) where
  next : α → α
  prev : α → α

namespace Links

section Operations

variable [DecidableEq α]

/-- `n->next = value`. -/
def setNext (links : Links α) (node value : α) : Links α :=
  { links with next := Function.update links.next node value }

/-- `n->prev = value`. -/
def setPrev (links : Links α) (node value : α) : Links α :=
  { links with prev := Function.update links.prev node value }

/-- `b->next->prev = b->prev; b->prev->next = b->next`. -/
def unlink (links : Links α) (node : α) : Links α :=
  let links := links.setPrev (links.next node) (links.prev node)
  links.setNext (links.prev node) (links.next node)

/-- `b->next = h.next; b->prev = &h; h.next->prev = b; h.next = b`. -/
def pushFront (links : Links α) (head node : α) : Links α :=
  let links := links.setNext node (links.next head)
  let links := links.setPrev node head
  let links := links.setPrev (links.next head) node
  links.setNext head node

/-- Follow `step` from `node` until the sentinel, returning the first node that
satisfies `p`. A ring of `n` nodes needs `n` rounds. -/
def findFrom (head : α) (step : α → α) (p : α → Bool) : Nat → α → Option α
  | 0, _ => none
  | rounds + 1, node =>
      if node = head then none
      else if p node then some node
      else findFrom head step p rounds (step node)

end Operations

/-- The pointers lead from `first` through exactly `nodes` to `last`, and back. -/
def Path (links : Links α) : α → List α → α → Prop
  | first, [], last => links.next first = last ∧ links.prev last = first
  | first, node :: nodes, last =>
      links.next first = node ∧ links.prev node = first ∧ Path links node nodes last

/-- The pointers spell out the ring `head, nodes…, head` without repetition. -/
structure Ring (links : Links α) (head : α) (nodes : List α) : Prop where
  nodup : (head :: nodes).Nodup
  path : links.Path head nodes head

/-- A path splits at every node it passes. -/
theorem path_append (links : Links α) {first last node : α} {before after : List α} :
    links.Path first (before ++ node :: after) last ↔
      links.Path first before node ∧ links.Path node after last := by
  induction before generalizing first with
  | nil => simp [Path, and_assoc]
  | cons head tail ih => simp [Path, ih, and_assoc]

/-- Pointers that agree on the fields a path reads spell the same path. -/
theorem Path.congr {links links' : Links α} {first last : α} {nodes : List α}
    (path : links.Path first nodes last)
    (nexts : ∀ node ∈ first :: nodes, links'.next node = links.next node)
    (prevs : ∀ node ∈ nodes ++ [last], links'.prev node = links.prev node) :
    links'.Path first nodes last := by
  induction nodes generalizing first with
  | nil =>
      obtain ⟨forth, back⟩ := path
      exact ⟨by rw [nexts first (by simp), forth], by rw [prevs last (by simp), back]⟩
  | cons node nodes ih =>
      obtain ⟨forth, back, rest⟩ := path
      refine ⟨by rw [nexts first (by simp), forth], by rw [prevs node (by simp), back], ?_⟩
      exact ih rest (fun other member => nexts other (List.mem_cons_of_mem _ member))
        (fun other member => prevs other (by simp at member ⊢; tauto))

/-- Pointers that agree on the nodes of a ring spell the same ring. -/
theorem Ring.congr {links links' : Links α} {head : α} {nodes : List α}
    (ring : links.Ring head nodes)
    (same : ∀ node ∈ head :: nodes, links'.next node = links.next node ∧ links'.prev node = links.prev node) :
    links'.Ring head nodes where
  nodup := ring.nodup
  path := ring.path.congr (fun node member => (same node member).1) fun node member =>
    (same node (by simp at member ⊢; tauto)).2

/-- The pointer into a path's end comes from its last node, and points back at it. -/
theorem Path.last {links : Links α} {first last : α} {nodes : List α}
    (path : links.Path first nodes last) :
    links.prev last ∈ first :: nodes ∧ links.next (links.prev last) = last := by
  induction nodes generalizing first with
  | nil =>
      obtain ⟨forth, back⟩ := path
      exact ⟨by simp [back], by rw [back, forth]⟩
  | cons node nodes ih =>
      obtain ⟨_, _, rest⟩ := path
      exact ⟨List.mem_cons_of_mem _ (ih rest).1, (ih rest).2⟩

/-- The first pointer of a path leads into it, and is pointed back at. -/
theorem Path.first {links : Links α} {first last : α} {nodes : List α}
    (path : links.Path first nodes last) :
    links.next first ∈ nodes ++ [last] ∧ links.prev (links.next first) = first := by
  cases nodes with
  | nil => exact ⟨by simp [path.1], by rw [path.1, path.2]⟩
  | cons node nodes => exact ⟨by simp [path.1], by rw [path.1, path.2.1]⟩

section Edits

variable [DecidableEq α]

@[simp] theorem setNext_next (links : Links α) (node value other : α) :
    (links.setNext node value).next other = if other = node then value else links.next other :=
  Function.update_apply ..

@[simp] theorem setNext_prev (links : Links α) (node value other : α) :
    (links.setNext node value).prev other = links.prev other := rfl

@[simp] theorem setPrev_prev (links : Links α) (node value other : α) :
    (links.setPrev node value).prev other = if other = node then value else links.prev other :=
  Function.update_apply ..

@[simp] theorem setPrev_next (links : Links α) (node value other : α) :
    (links.setPrev node value).next other = links.next other := rfl

/-- Unlinking an inner node of a path without repetition leaves the path
without that node. -/
theorem Path.unlink {links : Links α} {first last node : α} {before after : List α}
    (path : links.Path first (before ++ node :: after) last)
    (nodup : (first :: (before ++ node :: after)).Nodup)
    (ends : last ∉ before ++ node :: after) :
    (links.unlink node).Path first (before ++ after) last := by
  induction before generalizing first with
  | nil =>
      obtain ⟨forth, back, rest⟩ := path
      cases after with
      | nil =>
          obtain ⟨onward, return_⟩ := rest
          have apart : last ≠ node := by simpa using ends
          simp [Path, Links.unlink, onward, back, apart.symm]
      | cons other after =>
          obtain ⟨onward, return_, rest⟩ := rest
          simp only [List.nil_append, List.nodup_cons, List.mem_cons, not_or] at nodup ends
          have apart : node ≠ other := nodup.2.1.1
          refine ⟨by simp [Links.unlink, onward, back, apart], by simp [Links.unlink, onward, back], ?_⟩
          refine Path.congr rest (fun x member => ?_) (fun x member => ?_)
          · have : x ≠ first := by
              rintro rfl
              exact absurd member (by simp; tauto)
            simp [Links.unlink, onward, back, apart, this]
          · have : x ≠ other := by
              rintro rfl
              simp only [List.mem_append, List.mem_singleton] at member
              rcases member with inside | rfl
              · exact nodup.2.2.1 inside
              · tauto
            simp [Links.unlink, onward, this]
  | cons head before ih =>
      obtain ⟨forth, back, rest⟩ := path
      have inner := ih rest (List.nodup_cons.mp nodup).2 (fun member => ends (List.mem_cons_of_mem _ member))
      obtain ⟨toNode, fromNode⟩ := (path_append links).mp rest
      have prevMem := toNode.last.1
      have nextMem := fromNode.first.1
      simp only [List.cons_append, List.nodup_cons, List.mem_cons, List.mem_append, not_or] at nodup ends
      have prevNe : first ≠ links.prev node := by
        intro equal
        rw [← equal] at prevMem
        simp only [List.mem_cons] at prevMem
        tauto
      have nextNe : head ≠ links.next node := by
        intro equal
        rw [← equal] at nextMem
        simp only [List.mem_append, List.mem_singleton] at nextMem
        rcases nextMem with inside | rfl <;> tauto
      have stable : (links.setPrev (links.next node) (links.prev node)).prev node = links.prev node := by
        simp
      refine ⟨?_, ?_, inner⟩
      · simp only [Links.unlink, stable, setNext_next, setPrev_next, if_neg prevNe, forth]
      · simp only [Links.unlink, setNext_prev, setPrev_prev, if_neg nextNe, back]

/-- Unlinking a node of a ring leaves the ring of the other nodes, in order. -/
theorem Ring.unlink {links : Links α} {head node : α} {before after : List α}
    (ring : links.Ring head (before ++ node :: after)) :
    (links.unlink node).Ring head (before ++ after) where
  nodup := by
    have nodup := ring.nodup
    simp only [List.nodup_cons, List.mem_append, List.mem_cons, not_or] at nodup ⊢
    refine ⟨⟨nodup.1.1, nodup.1.2.2⟩, nodup.2.sublist ?_⟩
    simp
  path := ring.path.unlink ring.nodup (List.nodup_cons.mp ring.nodup).1

/-- Pushing a fresh node behind the sentinel puts it first. -/
theorem Ring.pushFront {links : Links α} {head node : α} {nodes : List α}
    (ring : links.Ring head nodes) (fresh : node ∉ head :: nodes) :
    (links.pushFront head node).Ring head (node :: nodes) where
  nodup := by
    have nodup := ring.nodup
    simp only [List.nodup_cons, List.mem_cons, not_or] at nodup fresh ⊢
    exact ⟨⟨Ne.symm fresh.1, nodup.1⟩, fresh.2, nodup.2⟩
  path := by
    have nodup := ring.nodup
    simp only [List.nodup_cons, List.mem_cons, not_or] at nodup fresh
    obtain ⟨headNe, nodeNew⟩ := fresh
    cases nodes with
    | nil =>
        obtain ⟨forth, back⟩ := ring.path
        simp [Path, Links.pushFront, forth, Ne.symm headNe]
    | cons first rest =>
        obtain ⟨forth, back, path⟩ := ring.path
        simp only [List.mem_cons, not_or, List.nodup_cons] at nodup nodeNew
        have firstNe : first ≠ head := Ne.symm nodup.1.1
        refine ⟨by simp [Links.pushFront],
          by simp [Links.pushFront, forth, Ne.symm headNe, nodeNew.1],
          by simp [Links.pushFront, forth, Ne.symm headNe, headNe],
          by simp [Links.pushFront, forth, Ne.symm headNe], ?_⟩
        refine path.congr (fun x member => ?_) (fun x member => ?_)
        · have notHead : x ≠ head := by rintro rfl; simp at member; tauto
          have notNode : x ≠ node := by rintro rfl; simp at member; tauto
          simp [Links.pushFront, notHead, notNode]
        · have notFirst : x ≠ first := by
            rintro rfl
            simp only [List.mem_append, List.mem_singleton] at member
            tauto
          have notNode : x ≠ node := by
            rintro rfl
            simp only [List.mem_append, List.mem_singleton] at member
            tauto
          simp [Links.pushFront, forth, Ne.symm headNe, notFirst, notNode]

/-- Moving a node of a ring behind the sentinel. -/
theorem Ring.moveFront {links : Links α} {head node : α} {before after : List α}
    (ring : links.Ring head (before ++ node :: after)) :
    ((links.unlink node).pushFront head node).Ring head (node :: (before ++ after)) := by
  apply ring.unlink.pushFront
  have nodup := ring.nodup
  simp only [List.nodup_cons, List.mem_append, List.mem_cons, List.nodup_append,
    not_or] at nodup ⊢
  refine ⟨Ne.symm nodup.1.2.1, ?_, nodup.2.2.1.1⟩
  intro member
  exact nodup.2.2.2 node member node (Or.inl rfl) rfl

/-- Traversing a ring forwards finds the first node of its list. -/
theorem Path.findFrom_next {links : Links α} {first head : α} {nodes : List α} {rounds : Nat}
    (path : links.Path first nodes head) (apart : head ∉ nodes) (p : α → Bool)
    (enough : nodes.length ≤ rounds) :
    findFrom head links.next p rounds (links.next first) = nodes.find? p := by
  induction nodes generalizing first rounds with
  | nil => cases rounds <;> simp [findFrom, path.1]
  | cons node nodes ih =>
      obtain ⟨forth, _, rest⟩ := path
      obtain _ | rounds := rounds
      · simp at enough
      simp only [List.mem_cons, not_or, List.length_cons, Nat.add_le_add_iff_right] at apart enough
      rw [findFrom, forth, if_neg (Ne.symm apart.1), ih rest apart.2 enough]
      cases found : p node <;> simp [found]

/-- Traversing a ring backwards finds the last node of its list. -/
theorem Path.findFrom_prev {links : Links α} {head last : α} {nodes : List α} {rounds : Nat}
    (path : links.Path head nodes last) (apart : head ∉ nodes) (p : α → Bool)
    (enough : nodes.length ≤ rounds) :
    findFrom head links.prev p rounds (links.prev last) = nodes.reverse.find? p := by
  induction nodes using List.reverseRecOn generalizing last rounds with
  | nil => cases rounds <;> simp [findFrom, path.2]
  | append_singleton nodes node ih =>
      obtain ⟨upTo, toLast⟩ := (path_append links).mp path
      obtain _ | rounds := rounds
      · simp at enough
      simp only [List.mem_append, List.mem_singleton, not_or, List.length_append,
        List.length_singleton, Nat.add_le_add_iff_right] at apart enough
      rw [findFrom, toLast.2, if_neg (Ne.symm apart.2), ih upTo apart.1 enough]
      cases found : p node <;> simp [found]

/-- A traversal stops only at a node that satisfies the condition. -/
theorem findFrom_sat {head node found : α} {step : α → α} {p : α → Bool} {rounds : Nat}
    (result : findFrom head step p rounds node = some found) : p found = true := by
  induction rounds generalizing node with
  | zero => cases result
  | succ rounds ih =>
      rw [findFrom] at result
      split at result
      · cases result
      split at result
      · next sat =>
        cases result
        exact sat
      · exact ih result


/-- Unlinking a node of a ring changes no pointer of other nodes. -/
theorem Ring.unlink_frame {links : Links α} {head node other : α} {nodes : List α}
    (ring : links.Ring head nodes) (member : node ∈ nodes) (apart : other ∉ head :: nodes) :
    (links.unlink node).next other = links.next other ∧
      (links.unlink node).prev other = links.prev other := by
  obtain ⟨before, after, rfl⟩ := List.append_of_mem member
  obtain ⟨toNode, fromNode⟩ := (path_append links).mp ring.path
  have prevMem := toNode.last.1
  have nextMem := fromNode.first.1
  have notPrev : other ≠ links.prev node := by
    rintro rfl
    simp at prevMem apart
    tauto
  have notNext : other ≠ links.next node := by
    rintro rfl
    simp at nextMem apart
    tauto
  simp [Links.unlink, notPrev, notNext]

/-- Pushing a node changes no pointer of nodes outside the ring. -/
theorem Ring.pushFront_frame {links : Links α} {head node other : α} {nodes : List α}
    (ring : links.Ring head nodes) (fresh : node ≠ head) (apart : other ∉ head :: nodes)
    (notNode : other ≠ node) : (links.pushFront head node).next other = links.next other ∧
      (links.pushFront head node).prev other = links.prev other := by
  have first := ring.path.first.1
  have notFirst : other ≠ links.next head := by
    rintro rfl
    simp at first apart
    tauto
  have notHead : other ≠ head := fun same => apart (by simp [same])
  simp [Links.pushFront, notNode, notHead, notFirst, fresh.symm]

/-- Rings with different heads that have no node in common. -/
structure Rings {ι : Type} (links : Links α) (active : ι → Prop) (head : ι → α)
    (nodes : ι → List α) : Prop where
  ring : ∀ k, active k → links.Ring (head k) (nodes k)
  apart : ∀ k, active k → ∀ j, active j → k ≠ j → ∀ x ∈ head k :: nodes k, x ∉ head j :: nodes j

namespace Rings

variable {ι : Type} [DecidableEq ι] {links : Links α} {active : ι → Prop} {head : ι → α}
  {nodes : ι → List α} {k : ι} {p : α}

omit [DecidableEq α] [DecidableEq ι] in
/-- Only the pointers of heads and nodes matter. -/
theorem congr {links' : Links α} (rings : links.Rings active head nodes)
    (same : ∀ k, active k → ∀ x ∈ head k :: nodes k,
      links'.next x = links.next x ∧ links'.prev x = links.prev x) :
    links'.Rings active head nodes :=
  ⟨fun k isActive => (rings.ring k isActive).congr (same k isActive), rings.apart⟩

omit [DecidableEq α] in
/-- The members of the lists when one list has one more. -/
theorem mem_update_cons {j : ι} {q : α} :
    q ∈ Function.update nodes k (p :: nodes k) j ↔ q ∈ nodes j ∨ (j = k ∧ q = p) := by
  by_cases here : j = k
  · subst here
    rw [Function.update_self, List.mem_cons]
    tauto
  · rw [Function.update_of_ne here]
    tauto

/-- The members of the lists when one is taken from a list. -/
theorem mem_update_erase {j : ι} {q : α} (nodup : (nodes k).Nodup) :
    q ∈ Function.update nodes k ((nodes k).erase p) j ↔ q ∈ nodes j ∧ ¬ (j = k ∧ q = p) := by
  by_cases here : j = k
  · subst here
    rw [Function.update_self, nodup.mem_erase_iff]
    tauto
  · rw [Function.update_of_ne here]
    tauto

theorem unlink (rings : links.Rings active head nodes) (isActive : active k) (member : p ∈ nodes k) :
    (links.unlink p).Rings active head (Function.update nodes k ((nodes k).erase p)) where
  ring j isActive' := by
    by_cases here : j = k
    · subst here
      rw [Function.update_self]
      have ring := rings.ring j isActive
      obtain ⟨before, after, split⟩ := List.append_of_mem member
      have notBefore : p ∉ before := by
        have nodup := ring.nodup.of_cons
        rw [split, List.nodup_append] at nodup
        exact fun inside => nodup.2.2 p inside p (List.mem_cons_self ..) rfl
      rw [split] at ring ⊢
      rw [List.erase_append_right _ notBefore, List.erase_cons_head]
      exact ring.unlink
    · rw [Function.update_of_ne here]
      exact (rings.ring j isActive').congr fun x inside =>
        (rings.ring k isActive).unlink_frame member (rings.apart j isActive' k isActive here x inside)
  apart j one i two different x inside := by
    have shrinks : ∀ c, ∀ x ∈ head c :: Function.update nodes k ((nodes k).erase p) c,
        x ∈ head c :: nodes c := by
      intro c x inside
      by_cases here : c = k
      · subst here
        rw [Function.update_self] at inside
        simp only [List.mem_cons] at inside ⊢
        exact inside.imp_right List.mem_of_mem_erase
      · rwa [Function.update_of_ne here] at inside
    exact fun inside' => rings.apart j one i two different x (shrinks j x inside) (shrinks i x inside')

theorem pushFront (rings : links.Rings active head nodes) (isActive : active k)
    (fresh : ∀ j, active j → p ∉ head j :: nodes j) :
    (links.pushFront (head k) p).Rings active head (Function.update nodes k (p :: nodes k)) where
  ring j isActive' := by
    by_cases here : j = k
    · subst here
      rw [Function.update_self]
      exact (rings.ring j isActive').pushFront (fresh j isActive')
    · rw [Function.update_of_ne here]
      refine (rings.ring j isActive').congr fun x inside => ?_
      refine (rings.ring k isActive).pushFront_frame ?_ (rings.apart j isActive' k isActive here x inside) ?_
      · rintro rfl
        exact fresh k isActive (by simp)
      · rintro rfl
        exact fresh j isActive' inside
  apart j one i two different x inside inside' := by
    have grows : ∀ c, ∀ x ∈ head c :: Function.update nodes k (p :: nodes k) c,
        x ∈ head c :: nodes c ∨ (c = k ∧ x = p) := by
      intro c x inside
      by_cases here : c = k
      · subst here
        rw [Function.update_self] at inside
        simp only [List.mem_cons] at inside ⊢
        tauto
      · rw [Function.update_of_ne here] at inside
        exact .inl inside
    obtain old | ⟨rfl, rfl⟩ := grows j x inside <;>
      obtain old' | ⟨rfl, same⟩ := grows i x inside'
    · exact rings.apart j one i two different x old old'
    · exact fresh j one (same ▸ old)
    · exact fresh i two old'
    · exact different rfl

omit [DecidableEq ι] in
/-- Nodes that are in no ring yet are pushed one after the other. -/
theorem pushAll (rings : links.Rings active head nodes) {pushed : List (ι × α)}
    (nodup : (pushed.map Prod.snd).Nodup)
    (fresh : ∀ k p, (k, p) ∈ pushed → active k ∧ ∀ j, active j → p ∉ head j :: nodes j) :
    ∃ nodes', (pushed.foldl (fun links e => links.pushFront (head e.1) e.2) links).Rings active head nodes' ∧
      ∀ j x, x ∈ nodes' j ↔ x ∈ nodes j ∨ (j, x) ∈ pushed := by
  classical
  induction pushed generalizing links nodes with
  | nil => exact ⟨nodes, rings, fun j x => by simp⟩
  | cons e rest ih =>
      obtain ⟨k, p⟩ := e
      rw [List.map_cons, List.nodup_cons] at nodup
      obtain ⟨isActive, new⟩ := fresh k p (List.mem_cons_self ..)
      obtain ⟨nodes', rings', mem⟩ := ih (rings.pushFront isActive new) nodup.2 (by
        intro k' p' member
        obtain ⟨isActive', new'⟩ := fresh k' p' (List.mem_cons_of_mem _ member)
        refine ⟨isActive', fun j activeJ inside => ?_⟩
        rw [List.mem_cons, mem_update_cons] at inside
        obtain isHead | was | ⟨_, same⟩ := inside
        · exact new' j activeJ (List.mem_cons.mpr (.inl isHead))
        · exact new' j activeJ (List.mem_cons_of_mem _ was)
        · subst same
          exact nodup.1 (List.mem_map.mpr ⟨_, member, rfl⟩))
      refine ⟨nodes', rings', fun j x => ?_⟩
      rw [mem, mem_update_cons, List.mem_cons, Prod.mk.injEq, or_assoc]

end Rings

end Edits

end Links

end Riscv2os.Std
