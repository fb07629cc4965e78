import Riscv2os.Xv7.Bio

/-!
# The order of the LRU ring

The invariant that makes `bget` right is about the order of the ring: whenever
two buffers carry one label, the later one is neither valid nor referenced. It
holds at boot, where all `NBUF` buffers are labelled `(0,0)`, and it makes the
first match of the forward scan the only buffer that can represent a block.
-/

namespace Riscv2os.Xv7

open Riscv2os.Std

/-- A buffer that is valid or that somebody holds or pins. -/
def Buf.Active (b : Buf) : Prop := b.valid = true ∨ b.refcnt ≠ 0

namespace Bcache

/-- The ring spells out `order`, from the most to the least recently used. -/
def Order (c : Bcache) (order : List (Fin NBUF)) : Prop :=
  c.links.Ring none (order.map some)

theorem Order.nodup {c : Bcache} {order : List (Fin NBUF)} (ring : c.Order order) :
    order.Nodup :=
  (List.nodup_cons.mp (Links.Ring.nodup ring)).2.of_map some

private theorem head_not_mem (order : List (Fin NBUF)) : (none : Node) ∉ order.map some := by
  simp

private theorem find_nodes (c : Bcache) (p : Buf → Bool) (order : List (Fin NBUF)) :
    ((order.map some).find? fun node : Node => node.any fun i => p (c.buf i)).join =
      order.find? fun i => p (c.buf i) := by
  rw [List.find?_map]
  have same : (fun node : Node => node.any fun i => p (c.buf i)) ∘ some = fun i => p (c.buf i) := by
    funext i
    simp
  rw [same]
  cases order.find? fun i => p (c.buf i) <;> rfl

/-- The forward scan of `bget` finds the first match of the ring. -/
theorem scan_next {c : Bcache} {order : List (Fin NBUF)} (ring : c.Order order)
    (length : order.length ≤ NBUF) (p : Buf → Bool) :
    c.scan c.links.next p = order.find? fun i => p (c.buf i) := by
  rw [scan, ring.path.findFrom_next (head_not_mem order) _ (by simpa using length), find_nodes]

/-- The backward scan of `bget` finds the last match of the ring. -/
theorem scan_prev {c : Bcache} {order : List (Fin NBUF)} (ring : c.Order order)
    (length : order.length ≤ NBUF) (p : Buf → Bool) :
    c.scan c.links.prev p = order.reverse.find? fun i => p (c.buf i) := by
  rw [scan, ring.path.findFrom_prev (head_not_mem order) _ (by simpa using length),
    ← List.map_reverse, find_nodes]

@[simp] theorem update_links (c : Bcache) (i : Fin NBUF) (f : Buf → Buf) :
    (c.update i f).links = c.links := rfl

end Bcache

/-- Of two buffers with one label, the later in the ring is not active. -/
def FrontFirst (buf : Fin NBUF → Buf) (order : List (Fin NBUF)) : Prop :=
  order.Pairwise fun front back => (buf front).addr = (buf back).addr → ¬ (buf back).Active

/-- The ring is a permutation of the whole array, with active buffers in front
of the other buffers of their label. -/
structure CacheOrder (c : Bcache) (order : List (Fin NBUF)) : Prop where
  ring : c.Order order
  perm : order.Perm (List.finRange NBUF)
  frontFirst : FrontFirst c.buf order

namespace CacheOrder

variable {c : Bcache} {order : List (Fin NBUF)}

theorem length (ordered : CacheOrder c order) : order.length ≤ NBUF := by
  rw [ordered.perm.length_eq, List.length_finRange]

theorem mem (ordered : CacheOrder c order) (i : Fin NBUF) : i ∈ order :=
  ordered.perm.mem_iff.mpr (List.mem_finRange i)

/-- At most one buffer with a given label is valid or held. -/
theorem unique (ordered : CacheOrder c order) {i j : Fin NBUF}
    (same : (c.buf i).addr = (c.buf j).addr) (activeI : (c.buf i).Active)
    (activeJ : (c.buf j).Active) : i = j := by
  obtain ⟨front, back, split⟩ := List.append_of_mem (ordered.mem i)
  have pairs := ordered.frontFirst
  rw [FrontFirst, split, List.pairwise_append, List.pairwise_cons] at pairs
  have place := ordered.mem j
  rw [split] at place
  rcases List.mem_append.mp place with earlier | later
  · exact absurd activeI (pairs.2.2 j earlier i List.mem_cons_self same.symm)
  · rcases List.mem_cons.mp later with rfl | later
    · rfl
    · exact absurd activeJ (pairs.2.1.1 j later same)

/-- The first match of a label is the only buffer that can be active with it. -/
theorem first_match (ordered : CacheOrder c order) {a : BlockAddr} {i j : Fin NBUF}
    (found : order.find? (fun i => (c.buf i).addr = a) = some i)
    (label : (c.buf j).addr = a) (active : (c.buf j).Active) : j = i := by
  obtain ⟨matched, front, back, split, others⟩ := List.find?_eq_some_iff_append.mp found
  have pairs := ordered.frontFirst
  rw [FrontFirst, split, List.pairwise_append, List.pairwise_cons] at pairs
  have place := ordered.mem j
  rw [split] at place
  rcases List.mem_append.mp place with earlier | later
  · have := others j earlier
    simp [label] at this
  · rcases List.mem_cons.mp later with rfl | later
    · rfl
    · have same : (c.buf i).addr = (c.buf j).addr := by
        rw [label]
        simpa using matched
      exact absurd active (pairs.2.1.1 j later same)

/-- A change that keeps a buffer's label and makes nothing newly active keeps
the order. -/
theorem update_of_active (ordered : CacheOrder c order) (i : Fin NBUF) {f : Buf → Buf}
    (label : (f (c.buf i)).addr = (c.buf i).addr)
    (active : (f (c.buf i)).Active → (c.buf i).Active) : CacheOrder (c.update i f) order where
  ring := ordered.ring
  perm := ordered.perm
  frontFirst := by
    have addr : ∀ x, ((c.update i f).buf x).addr = (c.buf x).addr := by
      intro x
      by_cases same : x = i
      · subst same; simpa [Bcache.update] using label
      · simp [Bcache.update, same]
    refine ordered.frontFirst.imp fun {x y} later equal => ?_
    rw [addr, addr] at equal
    by_cases same : y = i
    · subst same
      simpa [Bcache.update] using mt active (later equal)
    · simpa [Bcache.update, same] using later equal

/-- The first match of its label may become active. -/
theorem update_first (ordered : CacheOrder c order) {i : Fin NBUF} {f : Buf → Buf}
    (label : (f (c.buf i)).addr = (c.buf i).addr)
    (found : order.find? (fun j => (c.buf j).addr = (c.buf i).addr) = some i) :
    CacheOrder (c.update i f) order where
  ring := ordered.ring
  perm := ordered.perm
  frontFirst := by
    obtain ⟨_, front, back, split, others⟩ := List.find?_eq_some_iff_append.mp found
    have addr : ∀ x, ((c.update i f).buf x).addr = (c.buf x).addr := by
      intro x
      by_cases same : x = i
      · subst same; simpa [Bcache.update] using label
      · simp [Bcache.update, same]
    have nodup := ordered.ring.nodup
    rw [split, List.nodup_middle, List.nodup_cons, List.mem_append, not_or] at nodup
    -- nothing in front of the first match carries its label
    have first : order.Pairwise fun x y => y = i → (c.buf x).addr ≠ (c.buf i).addr := by
      rw [split, List.pairwise_append, List.pairwise_cons]
      refine ⟨?_, ⟨fun y member equal => absurd (equal ▸ member) nodup.1.2, ?_⟩, ?_⟩
      · exact (List.nodup_append.mp nodup.2).1.imp_of_mem
          fun _ member _ equal => absurd (equal ▸ member) nodup.1.1
      · exact (List.nodup_append.mp nodup.2).2.1.imp_of_mem
          fun _ member _ equal => absurd (equal ▸ member) nodup.1.2
      · intro x member _ _ _
        simpa using others x member
    refine (ordered.frontFirst.and first).imp fun {x y} pair equal => ?_
    rw [addr, addr] at equal
    by_cases same : y = i
    · subst same
      exact absurd equal (pair.2 rfl)
    · simpa [Bcache.update, same] using pair.1 equal

/-- A buffer may be relabelled with a label that no buffer carries. -/
theorem update_relabel (ordered : CacheOrder c order) (i : Fin NBUF) {f : Buf → Buf}
    (fresh : ∀ j, (c.buf j).addr ≠ (f (c.buf i)).addr) : CacheOrder (c.update i f) order where
  ring := ordered.ring
  perm := ordered.perm
  frontFirst := by
    have nodup := ordered.ring.nodup
    refine (ordered.frontFirst.and nodup).imp fun {x y} pair equal => ?_
    obtain ⟨later, apart⟩ := pair
    by_cases isX : x = i
    · subst isX
      simp only [Bcache.update, Function.update_self, Function.update_of_ne (Ne.symm apart)] at equal
      exact absurd equal.symm (fresh y)
    · by_cases isY : y = i
      · subst isY
        simp only [Bcache.update, Function.update_self, Function.update_of_ne isX] at equal
        exact absurd equal (fresh x)
      · simp only [Bcache.update, Function.update_of_ne isX, Function.update_of_ne isY] at equal ⊢
        exact later equal

/-- Moving the last active buffer of its label to the front keeps the order. -/
theorem moveFront (ordered : CacheOrder c order) {i : Fin NBUF}
    (others : ∀ j, (c.buf j).addr = (c.buf i).addr → (c.buf j).Active → j = i) :
    ∃ order', CacheOrder { c with links := (c.links.unlink (some i)).pushFront none (some i) } order' := by
  obtain ⟨front, back, split⟩ := List.append_of_mem (ordered.mem i)
  have nodup := ordered.ring.nodup
  have notIn : i ∉ front ++ back := by
    rw [split, List.nodup_middle, List.nodup_cons] at nodup
    exact nodup.1
  refine ⟨i :: (front ++ back), ?_, ?_, ?_⟩
  · have ring := ordered.ring
    rw [Bcache.Order, split, List.map_append, List.map_cons] at ring
    simpa [Bcache.Order] using ring.moveFront
  · rw [split] at ordered
    exact List.perm_middle.symm.trans ordered.perm
  · have pairs := ordered.frontFirst
    rw [FrontFirst, split] at pairs
    refine List.pairwise_cons.mpr ⟨fun j member equal active => ?_, ?_⟩
    · exact notIn (others j equal.symm active ▸ member)
    · exact pairs.sublist (by simp)

end CacheOrder

private theorem ring_foldl_pushFront (nodes : List (Fin NBUF)) {links : Links Node}
    {order : List (Fin NBUF)} (ring : links.Ring none (order.map some))
    (nodup : (nodes ++ order).Nodup) :
    (nodes.foldl (fun links i => links.pushFront none (some i)) links).Ring none
      ((nodes.reverse ++ order).map some) := by
  induction nodes generalizing links order with
  | nil => simpa using ring
  | cons node nodes ih =>
      simp only [List.cons_append, List.nodup_cons, List.mem_append, not_or] at nodup
      have pushed : (links.pushFront none (some node)).Ring none ((node :: order).map some) :=
        ring.pushFront (by simp [nodup.1.2])
      have := ih pushed (List.nodup_middle.mpr (List.nodup_cons.mpr ⟨by simp [nodup.1], nodup.2⟩))
      simpa using this

/-- `binit` links every buffer, all of them inactive. -/
theorem binit_order : ∃ order, CacheOrder binit order := by
  refine ⟨(List.finRange NBUF).reverse, ?_, List.reverse_perm _, ?_⟩
  · have empty : (⟨fun _ => none, fun _ => none⟩ : Links Node).Ring none
        (([] : List (Fin NBUF)).map some) := ⟨by simp, rfl, rfl⟩
    simpa [Bcache.Order, binit] using
      ring_foldl_pushFront (List.finRange NBUF) empty (by simpa using List.nodup_finRange NBUF)
  · exact List.Pairwise.imp (fun _ _ => by simp [binit, Buf.Active]) (List.nodup_reverse.mpr (List.nodup_finRange NBUF))

namespace BlockLayer

variable {m m' : BlockLayer} {i : Fin NBUF}

@[simp] theorem update_buf (m : BlockLayer) (i j : Fin NBUF) (f : Buf → Buf) :
    (m.update i f).buf j = if j = i then f (m.buf i) else m.buf j :=
  Function.update_apply ..

@[simp] theorem update_disk (m : BlockLayer) (i : Fin NBUF) (f : Buf → Buf) :
    (m.update i f).disk = m.disk := rfl

@[simp] theorem update_bcache (m : BlockLayer) (i : Fin NBUF) (f : Buf → Buf) :
    (m.update i f).bcache = m.bcache.update i f := rfl

/-- The rest of `bread` as one change of the buffer. -/
theorem fill_eq (m : BlockLayer) (i : Fin NBUF) :
    m.fill i = m.update i fun b =>
      if b.valid then b else { b with data := m.disk b.addr, valid := true } := by
  unfold fill
  split
  · next valid =>
    simp only [buf] at valid
    simp [update, Bcache.update, valid]
  · next invalid =>
    simp only [buf] at invalid
    simp [virtioDiskRw, update, Bcache.update, invalid]

@[simp] theorem drop_buf (m : BlockLayer) (i j : Fin NBUF) :
    (m.drop i).buf j =
      if j = i then { m.buf i with refcnt := (m.buf i).refcnt - 1 } else m.buf j := by
  have bufs : ∀ layer : BlockLayer, ∀ links : Links Node,
      ({ layer with bcache := { layer.bcache with links := links } } : BlockLayer).buf j =
        layer.buf j := fun _ _ => rfl
  unfold drop
  simp only
  split
  · rw [bufs, update_buf]
  · rw [update_buf]

@[simp] theorem drop_disk (m : BlockLayer) (i : Fin NBUF) : (m.drop i).disk = m.disk := by
  unfold drop
  simp only
  split <;> rfl

/-- What a call of `bget` can do: reference the first buffer with the label, or
relabel an unreferenced buffer when no buffer has the label. -/
theorem bget_cases {order : List (Fin NBUF)} {dev blockno : Nat}
    (ordered : CacheOrder m.bcache order) (got : m.bget dev blockno = .ok (i, m')) :
    (order.find? (fun j => (m.buf j).addr = ⟨dev, blockno⟩) = some i ∧
      m' = m.update i fun b => { b with refcnt := b.refcnt + 1 }) ∨
    ((∀ j, (m.buf j).addr ≠ ⟨dev, blockno⟩) ∧ (m.buf i).refcnt = 0 ∧
      m' = m.update i fun b =>
        { b with dev := dev, blockno := blockno, valid := false, refcnt := 1 }) := by
  have label : (fun j => (m.bcache.buf j).dev == dev && (m.bcache.buf j).blockno == blockno) =
      fun j => decide ((m.buf j).addr = ⟨dev, blockno⟩) := by
    funext j
    simp [buf, Buf.addr, Bool.beq_eq_decide_eq]
  unfold bget at got
  rw [Bcache.scan_next ordered.ring ordered.length, label,
    Bcache.scan_prev ordered.ring ordered.length] at got
  cases cached : order.find? (fun j => decide ((m.buf j).addr = ⟨dev, blockno⟩)) with
  | some j =>
      simp only [cached, Except.ok.injEq, Prod.mk.injEq] at got
      obtain ⟨rfl, rfl⟩ := got
      exact .inl ⟨rfl, rfl⟩
  | none =>
      cases free : order.reverse.find? fun j => (m.bcache.buf j).refcnt == 0 with
      | none =>
          simp only [cached, free] at got
          cases got
      | some j =>
          simp only [cached, free, Except.ok.injEq, Prod.mk.injEq] at got
          obtain ⟨rfl, rfl⟩ := got
          refine .inr ⟨fun x => ?_, by simpa [buf] using List.find?_some free, rfl⟩
          simpa using List.find?_eq_none.mp cached x (ordered.mem x)

end BlockLayer

end Riscv2os.Xv7
