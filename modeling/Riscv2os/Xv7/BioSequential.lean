import Riscv2os.Xv7.BioOrder

/-!
# One process alone in the block layer

`Solo` describes the block layer while one process runs and nobody else does:
which buffers it holds, which blocks are referenced beyond that, and the content
every block is meant to have. The functions of `bio.c` succeed in such a state,
and each has one lemma that says what it does to the description.
-/

namespace Riscv2os.Xv7

open Riscv2os.Std

namespace BlockLayer

@[simp] theorem update_writes (m : BlockLayer) (i : Fin NBUF) (f : Buf → Buf) :
    (m.update i f).writes = m.writes := rfl

/-- A change that keeps the label of its buffer keeps all labels. -/
theorem update_addr (m : BlockLayer) (i j : Fin NBUF) {f : Buf → Buf}
    (same : (f (m.buf i)).addr = (m.buf i).addr) :
    ((m.update i f).buf j).addr = (m.buf j).addr := by
  rw [update_buf]
  split
  · next equal => rw [equal, same]
  · rfl

theorem update_update (m : BlockLayer) (i : Fin NBUF) (f g : Buf → Buf) :
    (m.update i f).update i g = m.update i fun b => g (f b) := by
  simp [update, Bcache.update]

@[simp] theorem drop_writes (m : BlockLayer) (i : Fin NBUF) : (m.drop i).writes = m.writes := by
  unfold drop
  simp only
  split <;> rfl

/-- `bget` returns when the block is cached or when some buffer is free. -/
theorem bget_ok {m : BlockLayer} {order : List (Fin NBUF)} (ordered : CacheOrder m.bcache order)
    (dev blockno : Nat)
    (room : (∃ i, (m.buf i).addr = ⟨dev, blockno⟩) ∨ ∃ i, (m.buf i).refcnt = 0) :
    ∃ i m', m.bget dev blockno = .ok (i, m') := by
  unfold bget
  rw [Bcache.scan_next ordered.ring ordered.length, Bcache.scan_prev ordered.ring ordered.length]
  cases cached : order.find? fun i => (m.bcache.buf i).dev == dev && (m.bcache.buf i).blockno == blockno with
  | some i => exact ⟨_, _, rfl⟩
  | none =>
      cases free : order.reverse.find? fun i => (m.bcache.buf i).refcnt == 0 with
      | some i => exact ⟨_, _, rfl⟩
      | none =>
          exfalso
          rcases room with ⟨i, label⟩ | ⟨i, zero⟩
          · have := List.find?_eq_none.mp cached i (ordered.mem i)
            simp only [buf, Buf.addr, BlockAddr.mk.injEq] at label
            simp [label] at this
          · have := List.find?_eq_none.mp free i (List.mem_reverse.mpr (ordered.mem i))
            simp only [buf] at zero
            simp [zero] at this

end BlockLayer

/-- A buffer after the rest of `bread`: locked, and read from `disk` unless it
was valid. -/
def Buf.readBy (b : Buf) (pid : Nat) (disk : Disk) : Buf :=
  if b.valid then { b with lock := some pid }
  else { b with lock := some pid, data := disk b.addr, valid := true }

@[simp] theorem Buf.readBy_addr (b : Buf) (pid : Nat) (disk : Disk) :
    (b.readBy pid disk).addr = b.addr := by
  unfold Buf.readBy
  split <;> rfl

/-- What is true of the block layer while process `pid` runs alone. It holds the
buffers `held`; `weight` is the extra count of each buffer of `referenced`;
`content` is what the blocks are meant to hold. -/
structure Solo (pid : Nat) (content : Disk) (weight : BitVec 32) (referenced : List BlockAddr)
    (held : List (Fin NBUF)) (m : BlockLayer) : Prop where
  order : ∃ order, CacheOrder m.bcache order
  nodup : held.Nodup
  nonzero : weight ≠ 0
  lock : ∀ i, (m.buf i).lock = if i ∈ held then some pid else none
  refcnt : ∀ i, (m.buf i).refcnt =
    (if (m.buf i).valid = true ∧ (m.buf i).addr ∈ referenced then weight else 0) +
      if i ∈ held then 1 else 0
  valid : ∀ i ∈ held, (m.buf i).valid = true
  present : ∀ a ∈ referenced, ∃ i, (m.buf i).valid = true ∧ (m.buf i).addr = a
  cached : ∀ i, (m.buf i).valid = true → (m.buf i).data = content (m.buf i).addr
  uncached : ∀ a, (∀ i, (m.buf i).addr = a → (m.buf i).valid = false) → m.disk a = content a
  clean : ∀ i, (m.buf i).valid = true → i ∉ held → (m.buf i).addr ∉ referenced →
    m.disk (m.buf i).addr = (m.buf i).data

namespace Solo

variable {pid : Nat} {content : Disk} {weight : BitVec 32} {referenced : List BlockAddr}
  {held : List (Fin NBUF)} {m : BlockLayer}

/-- A machine that has just booted holds nothing. -/
theorem boot (pid : Nat) {weight : BitVec 32} (nonzero : weight ≠ 0) (disk : Disk)
    (writes : List (BlockAddr × Block)) : Solo pid disk weight [] [] ⟨binit, disk, writes⟩ where
  order := binit_order
  nodup := List.nodup_nil
  nonzero := nonzero
  lock _ := rfl
  refcnt _ := by simp [BlockLayer.buf, binit]
  valid _ member := absurd member List.not_mem_nil
  present _ member := absurd member List.not_mem_nil
  cached _ isValid := by simp [BlockLayer.buf, binit] at isValid
  uncached _ _ := rfl
  clean _ isValid := by simp [BlockLayer.buf, binit] at isValid

/-- Two valid buffers represent different blocks. -/
theorem unique (solo : Solo pid content weight referenced held m) {i j : Fin NBUF}
    (validI : (m.buf i).valid = true) (validJ : (m.buf j).valid = true)
    (same : (m.buf i).addr = (m.buf j).addr) : i = j := by
  obtain ⟨order, ordered⟩ := solo.order
  exact ordered.unique same (.inl validI) (.inl validJ)

/-- A held buffer has its block's content. -/
theorem data (solo : Solo pid content weight referenced held m) {i : Fin NBUF}
    (member : i ∈ held) : (m.buf i).data = content (m.buf i).addr :=
  solo.cached i (solo.valid i member)

theorem holdingsleep (solo : Solo pid content weight referenced held m) {i : Fin NBUF}
    (member : i ∈ held) : m.holdingsleep pid i = true := by
  simp [BlockLayer.holdingsleep, solo.lock, member]

/-- The order in which buffers are listed as held does not matter. -/
theorem perm (solo : Solo pid content weight referenced held m) {held' : List (Fin NBUF)}
    (same : held.Perm held') : Solo pid content weight referenced held' m where
  order := solo.order
  nodup := same.nodup_iff.mp solo.nodup
  nonzero := solo.nonzero
  lock i := by simp only [solo.lock, same.mem_iff]
  refcnt i := by simp only [solo.refcnt, same.mem_iff]
  valid i member := solo.valid i (same.mem_iff.mpr member)
  present := solo.present
  cached := solo.cached
  uncached := solo.uncached
  clean i isValid loose := solo.clean i isValid fun member => loose (same.mem_iff.mp member)

/-- Neither does the order in which blocks are listed as referenced. -/
theorem congr_referenced (solo : Solo pid content weight referenced held m)
    {referenced' : List BlockAddr} (same : ∀ a, a ∈ referenced ↔ a ∈ referenced') :
    Solo pid content weight referenced' held m where
  order := solo.order
  nodup := solo.nodup
  nonzero := solo.nonzero
  lock := solo.lock
  refcnt i := by simp only [solo.refcnt, same]
  valid := solo.valid
  present a member := solo.present a ((same a).mpr member)
  cached := solo.cached
  uncached := solo.uncached
  clean i isValid loose unreferenced :=
    solo.clean i isValid loose fun member => unreferenced ((same _).mp member)

/-- Without references it does not matter what a reference weighs. -/
theorem reweigh (solo : Solo pid content weight [] held m) {weight' : BitVec 32}
    (nonzero : weight' ≠ 0) : Solo pid content weight' [] held m :=
  { solo with
    nonzero := nonzero
    refcnt := fun i => by simpa using solo.refcnt i }

/-- A held buffer that nothing else references is counted once. -/
theorem refcnt_held (solo : Solo pid content weight referenced held m) {i : Fin NBUF}
    (member : i ∈ held) (unreferenced : (m.buf i).addr ∉ referenced) : (m.buf i).refcnt = 1 := by
  simp [solo.refcnt, member, unreferenced]

/-- The disk is up to date for a block that nobody holds or references. -/
theorem settled (solo : Solo pid content weight referenced held m) {a : BlockAddr}
    (unreferenced : a ∉ referenced) (loose : ∀ i ∈ held, (m.buf i).addr ≠ a) :
    m.disk a = content a := by
  by_cases inCache : ∃ i, (m.buf i).addr = a ∧ (m.buf i).valid = true
  · obtain ⟨i, rfl, isValid⟩ := inCache
    rw [solo.clean i isValid (fun member => loose i member rfl) unreferenced,
      solo.cached i isValid]
  · exact solo.uncached a fun i same => by simpa [same] using fun isValid => inCache ⟨i, same, isValid⟩

/-- With fewer references than buffers, some buffer is free. -/
private theorem free (solo : Solo pid content weight referenced held m)
    (room : referenced.length + held.length < NBUF) : ∃ i, (m.buf i).refcnt = 0 := by
  by_contra busy
  simp only [not_exists] at busy
  let others := (List.finRange NBUF).filter fun i => i ∉ held
  have used : ∀ i ∈ others, (m.buf i).valid = true ∧ (m.buf i).addr ∈ referenced := by
    intro i member
    have apart : i ∉ held := by simpa [others] using member
    have := busy i
    rw [solo.refcnt] at this
    by_contra unused
    simp [apart, unused] at this
  have distinct : (others.map fun i => (m.buf i).addr).Nodup := by
    refine List.Nodup.map_on (fun i memberI j memberJ same => ?_)
      ((List.nodup_finRange NBUF).filter _)
    exact solo.unique (used i memberI).1 (used j memberJ).1 same
  have inside : (others.map fun i => (m.buf i).addr) ⊆ referenced := by
    intro a member
    obtain ⟨i, place, rfl⟩ := List.mem_map.mp member
    exact (used i place).2
  have few : others.length ≤ referenced.length := by
    simpa using (List.subperm_of_subset distinct inside).length_le
  have rest : ((List.finRange NBUF).filter fun i => i ∈ held).length ≤ held.length :=
    (List.subperm_of_subset ((List.nodup_finRange NBUF).filter _)
      fun i member => by simpa using member).length_le
  have whole : others.length + ((List.finRange NBUF).filter fun i => i ∈ held).length = NBUF := by
    have := List.length_eq_length_filter_add (l := List.finRange NBUF) fun i => i ∈ held
    simp only [List.length_finRange] at this
    have same : others = (List.finRange NBUF).filter fun i => !decide (i ∈ held) := by
      simp [others]
    rw [same]
    omega
  omega

/-- `bread` as one change of the buffer that `bget` returned. -/
private theorem bread_of_bget {dev blockno : Nat} {i : Fin NBUF} {g : Buf → Buf}
    (got : m.bget dev blockno = .ok (i, m.update i g)) (unlocked : (g (m.buf i)).lock = none) :
    m.bread pid dev blockno = .ok (i, m.update i fun b => (g b).readBy pid m.disk) := by
  have locked : (m.update i g).acquiresleep pid i =
      .ok ((m.update i g).update i fun b => { b with lock := some pid }) := by
    simp [BlockLayer.acquiresleep, unlocked]
  have filled : BlockLayer.fill ((m.update i g).update i fun b => { b with lock := some pid }) i =
      m.update i fun b => (g b).readBy pid m.disk := by
    rw [BlockLayer.fill_eq, BlockLayer.update_update, BlockLayer.update_update]
    rfl
  rw [BlockLayer.bread, got, ← filled]
  simp only [bind, Except.bind, locked]
  rfl

/-- What `bread` did to the buffer that it returns: lock a cached copy of the
block, or read the block into a buffer that did not represent any. -/
private theorem bread_cases (pid : Nat) {order : List (Fin NBUF)} {dev blockno : Nat} {i : Fin NBUF}
    {m' : BlockLayer} (ordered : CacheOrder m.bcache order)
    (got : m.bget dev blockno = .ok (i, m')) (unlocked : (m.buf i).lock = none) :
    ∃ f : Buf → Buf, m.bread pid dev blockno = .ok (i, m.update i f) ∧
      CacheOrder (m.update i f).bcache order ∧
      (((m.buf i).valid = true ∧ (m.buf i).addr = ⟨dev, blockno⟩ ∧
          f (m.buf i) = { m.buf i with refcnt := (m.buf i).refcnt + 1, lock := some pid }) ∨
        (((m.buf i).addr = ⟨dev, blockno⟩ ∧ (m.buf i).valid = false ∨
            (m.buf i).refcnt = 0 ∧ ∀ j, (m.buf j).addr ≠ ⟨dev, blockno⟩) ∧
          f (m.buf i) = {
            valid := true, dev := dev, blockno := blockno, lock := some pid
            refcnt := (m.buf i).refcnt + 1, data := m.disk ⟨dev, blockno⟩ })) := by
  rcases BlockLayer.bget_cases ordered got with ⟨found, rfl⟩ | ⟨fresh, zero, rfl⟩
  · have label : (m.buf i).addr = ⟨dev, blockno⟩ := by simpa using List.find?_some found
    refine ⟨_, bread_of_bget got unlocked, ?_, ?_⟩
    · rw [BlockLayer.update_bcache]
      apply ordered.update_first
      · simp only [Buf.readBy_addr]
        rfl
      · change order.find? (fun j => (m.buf j).addr = (m.buf i).addr) = some i
        rw [label]
        exact found
    · by_cases isValid : (m.buf i).valid = true
      · exact .inl ⟨isValid, label, by simp [Buf.readBy, isValid]⟩
      · have invalid : (m.buf i).valid = false := by simpa using isValid
        refine .inr ⟨.inl ⟨label, invalid⟩, ?_⟩
        simp only [Buf.addr, BlockAddr.mk.injEq] at label
        simp [Buf.readBy, invalid, Buf.addr, label]
  · refine ⟨_, bread_of_bget got unlocked, ?_, ?_⟩
    · rw [BlockLayer.update_bcache]
      apply ordered.update_relabel
      simp only [Buf.readBy_addr]
      exact fresh
    · refine .inr ⟨.inr ⟨zero, fresh⟩, ?_⟩
      simp [Buf.readBy, Buf.addr, zero]

/-- A buffer that may be recycled is not the cached copy of a referenced block. -/
private theorem unreferenced (solo : Solo pid content weight referenced held m) {i : Fin NBUF} (apart : i ∉ held)
    (zero : (m.buf i).refcnt = 0) (isValid : (m.buf i).valid = true) : (m.buf i).addr ∉ referenced := by
  intro member
  have := solo.refcnt i
  rw [zero, if_pos ⟨isValid, member⟩, if_neg apart] at this
  exact solo.nonzero (by simpa using this.symm)

/-- What `bread` makes of the buffer that it returns. -/
private structure Reads (pid : Nat) (held : List (Fin NBUF)) (m : BlockLayer) (a : BlockAddr) (i : Fin NBUF)
    (b : Buf) : Prop where
  apart : i ∉ held
  fresh : ∀ {j}, (m.buf j).valid = true → (m.buf j).addr = a → j = i
  change : ((m.buf i).valid = true ∧ (m.buf i).addr = a ∧
      b = { m.buf i with refcnt := (m.buf i).refcnt + 1, lock := some pid }) ∨
    (((m.buf i).addr = a ∧ (m.buf i).valid = false ∨ (m.buf i).refcnt = 0 ∧ ∀ j, (m.buf j).addr ≠ a) ∧
      b = { valid := true, dev := a.dev, blockno := a.blockno, lock := some pid
            refcnt := (m.buf i).refcnt + 1, data := m.disk a })

namespace Reads

variable {a : BlockAddr} {i : Fin NBUF} {b : Buf}

private theorem label (reads : Reads pid held m a i b) : b.addr = a := by
  rcases reads.change with ⟨_, label, rfl⟩ | ⟨_, rfl⟩
  · exact label
  · rfl

private theorem valid (reads : Reads pid held m a i b) : b.valid = true ∧ b.lock = some pid := by
  rcases reads.change with ⟨isValid, _, rfl⟩ | ⟨_, rfl⟩
  · exact ⟨isValid, rfl⟩
  · exact ⟨rfl, rfl⟩

/-- The block that is read in was not in the cache. -/
private theorem none (reads : Reads pid held m a i b)
    (old : (m.buf i).addr = a ∧ (m.buf i).valid = false ∨ (m.buf i).refcnt = 0 ∧ ∀ j, (m.buf j).addr ≠ a)
    {k : Fin NBUF} (isValid : (m.buf k).valid = true) (same : (m.buf k).addr = a) : False := by
  have := reads.fresh isValid same
  subst this
  rcases old with ⟨_, invalid⟩ | ⟨_, none⟩
  · simp [isValid] at invalid
  · exact none k same

private theorem refcnt (reads : Reads pid held m a i b) (solo : Solo pid content weight referenced held m) :
    b.refcnt = (if a ∈ referenced then weight else 0) + 1 := by
  have counted := solo.refcnt i
  simp only [reads.apart, if_false] at counted
  rcases reads.change with ⟨isValid, oldLabel, rfl⟩ | ⟨old, rfl⟩
  · simp [counted, isValid, oldLabel]
  · have missing : a ∉ referenced := by
      intro member
      obtain ⟨k, isValid, same⟩ := solo.present _ member
      exact reads.none old isValid same
    have zero : (m.buf i).refcnt = 0 := by
      rcases old with ⟨_, invalid⟩ | ⟨zero, _⟩
      · simpa [invalid] using counted
      · exact zero
    simp [missing, zero]

private theorem data (reads : Reads pid held m a i b) (solo : Solo pid content weight referenced held m) :
    b.data = content a := by
  rcases reads.change with ⟨isValid, rfl, rfl⟩ | ⟨old, rfl⟩
  · exact solo.cached i isValid
  · refine solo.uncached _ fun k same => ?_
    by_contra wasValid
    exact reads.none old (by simpa using wasValid) same

/-- A buffer keeps the block that it had, where that is referenced. -/
private theorem keeps (reads : Reads pid held m a i b) (solo : Solo pid content weight referenced held m)
    (isValid : (m.buf i).valid = true) (member : (m.buf i).addr ∈ referenced) : (m.buf i).addr = a := by
  rcases reads.change with ⟨_, label, _⟩ | ⟨⟨_, invalid⟩ | ⟨zero, _⟩, _⟩
  · exact label
  · simp [isValid] at invalid
  · exact absurd member (solo.unreferenced reads.apart zero isValid)

/-- A buffer that is recycled agreed with its disk. -/
private theorem recycled (reads : Reads pid held m a i b) (solo : Solo pid content weight referenced held m)
    (isValid : (m.buf i).valid = true) (different : (m.buf i).addr ≠ a) :
    m.disk (m.buf i).addr = content (m.buf i).addr := by
  rcases reads.change with ⟨_, oldLabel, _⟩ | ⟨⟨_, invalid⟩ | ⟨zero, _⟩, _⟩
  · exact absurd oldLabel different
  · simp [isValid] at invalid
  · rw [solo.clean i isValid reads.apart (solo.unreferenced reads.apart zero isValid), solo.cached i isValid]

end Reads

/-- The buffer that `bget` finds is none that the process holds. -/
private theorem reads_of_bget {order : List (Fin NBUF)} {dev blockno : Nat} {i : Fin NBUF} {m₁ : BlockLayer}
    (solo : Solo pid content weight referenced held m) (ordered : CacheOrder m.bcache order)
    (others : ∀ i ∈ held, (m.buf i).addr ≠ ⟨dev, blockno⟩ ∧ (m.buf i).refcnt ≠ 0)
    (got : m.bget dev blockno = .ok (i, m₁)) :
    ∃ f : Buf → Buf, m.bread pid dev blockno = .ok (i, m.update i f) ∧
      CacheOrder (m.update i f).bcache order ∧ Reads pid held m ⟨dev, blockno⟩ i (f (m.buf i)) := by
  have apart : i ∉ held := by
    intro member
    rcases BlockLayer.bget_cases ordered got with ⟨found, _⟩ | ⟨_, zero, _⟩
    · exact (others i member).1 (by simpa using List.find?_some found)
    · exact (others i member).2 zero
  have unlocked : (m.buf i).lock = none := by rw [solo.lock, if_neg apart]
  obtain ⟨f, read, ordered', change⟩ := bread_cases pid ordered got unlocked
  refine ⟨f, read, ordered', apart, fun {j} isValid same => ?_, change⟩
  rcases BlockLayer.bget_cases ordered got with ⟨found, _⟩ | ⟨none, _, _⟩
  · exact ordered.first_match found same (.inl isValid)
  · exact absurd same (none j)

/-- `bread` returns the block's content, if a buffer for it is cached or free
and the process does not already hold the block. -/
theorem bread (solo : Solo pid content weight referenced held m) (dev blockno : Nat)
    (others : ∀ i ∈ held, (m.buf i).addr ≠ ⟨dev, blockno⟩ ∧ (m.buf i).refcnt ≠ 0)
    (room : referenced.length + held.length < NBUF ∨ ⟨dev, blockno⟩ ∈ referenced) :
    ∃ i m', m.bread pid dev blockno = .ok (i, m') ∧
      Solo pid content weight referenced (i :: held) m' ∧ (m'.buf i).addr = ⟨dev, blockno⟩ ∧
      i ∉ held ∧ (∀ j, j ≠ i → m'.buf j = m.buf j) ∧ m'.disk = m.disk ∧ m'.writes = m.writes := by
  obtain ⟨order, ordered⟩ := solo.order
  have available : (∃ i, (m.buf i).addr = ⟨dev, blockno⟩) ∨ ∃ i, (m.buf i).refcnt = 0 := by
    rcases room with room | member
    · exact .inr (solo.free room)
    · obtain ⟨i, _, label⟩ := solo.present _ member
      exact .inl ⟨i, label⟩
  obtain ⟨i, m₁, got⟩ := BlockLayer.bget_ok ordered dev blockno available
  obtain ⟨f, read, ordered', reads⟩ := solo.reads_of_bget ordered others got
  have bufAt : ∀ j, (m.update i f).buf j = if j = i then f (m.buf i) else m.buf j :=
    m.update_buf i (f := f)
  refine ⟨i, _, read, ⟨⟨order, ordered'⟩, List.nodup_cons.mpr ⟨reads.apart, solo.nodup⟩, solo.nonzero,
    fun j => ?_, fun j => ?_, fun j member => ?_, fun a member => ?_, fun j isValid => ?_,
    fun a nobody => ?_, fun j isValid loose unreferenced => ?_⟩, ?_, reads.apart, fun j different => ?_,
    rfl, rfl⟩
  · rw [bufAt]
    by_cases same : j = i
    · simp [same, reads.valid.2]
    · simp [same, solo.lock]
  · rw [bufAt]
    by_cases same : j = i
    · simp [same, reads.valid.1, reads.label, reads.refcnt solo]
    · simpa [same] using solo.refcnt j
  · rw [bufAt]
    by_cases same : j = i
    · simp [same, reads.valid.1]
    · simpa [same] using solo.valid j ((List.mem_cons.mp member).resolve_left same)
  · obtain ⟨j, isValid, same⟩ := solo.present a member
    refine ⟨j, ?_⟩
    rw [bufAt]
    by_cases equal : j = i
    · subst equal
      subst same
      simp [reads.valid.1, reads.label, reads.keeps solo isValid member]
    · simpa [equal] using ⟨isValid, same⟩
  · rw [bufAt] at isValid ⊢
    by_cases same : j = i
    · simp [same, reads.label, reads.data solo]
    · simpa [same] using solo.cached j (by simpa [same] using isValid)
  · change m.disk a = content a
    have different : a ≠ ⟨dev, blockno⟩ := by
      rintro rfl
      have := nobody i (by simp [reads.label])
      simp [reads.valid.1] at this
    by_cases old : (m.buf i).valid = true ∧ (m.buf i).addr = a
    · obtain ⟨isValid, rfl⟩ := old
      exact reads.recycled solo isValid different
    · refine solo.uncached a fun j same => ?_
      by_cases equal : j = i
      · subst equal
        simpa [same] using old
      · simpa [equal] using nobody j (by simpa [equal] using same)
  · rw [List.mem_cons, not_or] at loose
    rw [bufAt, if_neg loose.1] at isValid unreferenced ⊢
    exact solo.clean j isValid loose.2 unreferenced
  · simp [reads.label]
  · simp [different]

/-- A held buffer changes in its data or its count alone. -/
private theorem change (solo : Solo pid content weight referenced held m) {i : Fin NBUF}
    (member : i ∈ held) {f : Buf → Buf} (addr : (f (m.buf i)).addr = (m.buf i).addr)
    (isValid : (f (m.buf i)).valid = true) (lock : (f (m.buf i)).lock = (m.buf i).lock)
    {content' : Disk} {referenced' : List BlockAddr}
    (elsewhere : ∀ a, a ≠ (m.buf i).addr → content' a = content a ∧ (a ∈ referenced' ↔ a ∈ referenced))
    (refcnt : (f (m.buf i)).refcnt =
      (if (m.buf i).addr ∈ referenced' then weight else 0) + 1)
    (data : (f (m.buf i)).data = content' (m.buf i).addr) :
    Solo pid content' weight referenced' held (m.update i f) := by
  obtain ⟨order, ordered⟩ := solo.order
  have wasValid := solo.valid i member
  have bufAt : ∀ j, (m.update i f).buf j = if j = i then f (m.buf i) else m.buf j :=
    m.update_buf i (f := f)
  have other : ∀ j, j ≠ i → (m.buf j).valid = true → (m.buf j).addr ≠ (m.buf i).addr :=
    fun j apart isValid same => apart (solo.unique isValid wasValid same)
  refine ⟨⟨order, ordered.update_of_active i addr fun _ => .inl wasValid⟩, solo.nodup,
    solo.nonzero, fun j => ?_, fun j => ?_, fun j place => ?_, fun a place => ?_,
    fun j valid => ?_, fun a nobody => ?_, fun j valid loose unreferenced => ?_⟩
  · rw [bufAt]
    split
    · next same => rw [lock, same, solo.lock]
    · exact solo.lock j
  · rw [bufAt]
    by_cases same : j = i
    · subst same
      simp [isValid, addr, refcnt, member]
    · have := solo.refcnt j
      simp only [same, if_false]
      rw [this]
      by_cases valid : (m.buf j).valid = true
      · simp [valid, (elsewhere _ (other j same valid)).2]
      · simp [valid]
  · rw [bufAt]
    split
    · exact isValid
    · exact solo.valid j place
  · by_cases mine : a = (m.buf i).addr
    · exact ⟨i, by simp [isValid], by simp [addr, mine]⟩
    · obtain ⟨j, valid, same⟩ := solo.present a ((elsewhere a mine).2.mp place)
      have apart : j ≠ i := fun equal => mine (by rw [← same, equal])
      exact ⟨j, by simpa [apart] using valid, by simpa [apart] using same⟩
  · rw [bufAt] at valid ⊢
    by_cases same : j = i
    · simp [same, data, addr]
    · simp only [same, if_false] at valid ⊢
      rw [(elsewhere _ (other j same valid)).1]
      exact solo.cached j valid
  · have apart : a ≠ (m.buf i).addr := by
      rintro rfl
      simpa [isValid] using nobody i (by simp [addr])
    rw [(elsewhere a apart).1]
    refine solo.uncached a fun j same => ?_
    have different : j ≠ i := fun equal => apart (by rw [← same, equal])
    simpa [different] using nobody j (by simpa [different] using same)
  · have apart : j ≠ i := fun equal => loose (equal ▸ member)
    rw [bufAt, if_neg apart] at valid unreferenced ⊢
    exact solo.clean j valid loose fun place =>
      unreferenced ((elsewhere _ (other j apart valid)).2.mpr place)

/-- Storing into a held buffer changes the content of its block. -/
theorem setData (solo : Solo pid content weight referenced held m) {i : Fin NBUF}
    (member : i ∈ held) (data : Block) :
    Solo pid (Function.update content (m.buf i).addr data) weight referenced held
      (m.setData i data) := by
  have counted := solo.refcnt i
  apply solo.change member
  · rfl
  · exact solo.valid i member
  · rfl
  · exact fun a apart => ⟨Function.update_of_ne apart _ _, Iff.rfl⟩
  · change (m.buf i).refcnt = _
    simp [counted, solo.valid i member, member]
  · simp

/-- One reference more to a held buffer: `bpin`, or a `bunpin` of a buffer that
was not pinned. -/
private theorem reference (solo : Solo pid content weight referenced held m) {i : Fin NBUF}
    (member : i ∈ held) (fresh : (m.buf i).addr ∉ referenced) :
    Solo pid content weight ((m.buf i).addr :: referenced) held
      (m.update i fun b => { b with refcnt := b.refcnt + weight }) := by
  have counted := solo.refcnt i
  apply solo.change member
  · rfl
  · exact solo.valid i member
  · rfl
  · exact fun a apart => ⟨rfl, by simp [apart]⟩
  · change (m.buf i).refcnt + weight = _
    simp [counted, member, fresh, add_comm]
  · exact solo.data member

theorem bpin (solo : Solo pid content 1 referenced held m) {i : Fin NBUF}
    (member : i ∈ held) (fresh : (m.buf i).addr ∉ referenced) :
    Solo pid content 1 ((m.buf i).addr :: referenced) held (m.bpin i) :=
  solo.reference member fresh

/-- A `bunpin` of a held buffer that was not pinned leaves its count one short. -/
theorem bunpin_unpinned (solo : Solo pid content (-1) referenced held m) {i : Fin NBUF}
    (member : i ∈ held) (fresh : (m.buf i).addr ∉ referenced) :
    Solo pid content (-1) ((m.buf i).addr :: referenced) held (m.bunpin i) := by
  have same : m.bunpin i = m.update i fun b => { b with refcnt := b.refcnt + -1 } := by
    simp only [BlockLayer.bunpin, sub_eq_add_neg]
  rw [same]
  exact solo.reference member fresh

/-- A `bunpin` of a held buffer that was pinned. -/
theorem bunpin (solo : Solo pid content 1 referenced held m) {i : Fin NBUF}
    (member : i ∈ held) (pinned : (m.buf i).addr ∈ referenced) (nodup : referenced.Nodup) :
    Solo pid content 1 (referenced.erase (m.buf i).addr) held (m.bunpin i) := by
  have counted := solo.refcnt i
  apply solo.change member
  · rfl
  · exact solo.valid i member
  · rfl
  · exact fun a apart => ⟨rfl, List.mem_erase_of_ne apart⟩
  · change (m.buf i).refcnt - 1 = _
    simp [counted, solo.valid i member, member, pinned, nodup.not_mem_erase]
  · exact solo.data member

/-- Writing a held buffer to its disk. -/
theorem bwrite (solo : Solo pid content weight referenced held m) {i : Fin NBUF}
    (member : i ∈ held) :
    m.bwrite pid i = .ok (m.virtioDiskRw i true) ∧
      Solo pid content weight referenced held (m.virtioDiskRw i true) := by
  refine ⟨by simp [BlockLayer.bwrite, solo.holdingsleep member], solo.order, solo.nodup,
    solo.nonzero, solo.lock, solo.refcnt, solo.valid, solo.present, solo.cached,
    fun a nobody => ?_, fun j isValid loose unreferenced => ?_⟩
  · have apart : a ≠ (m.buf i).addr := by
      rintro rfl
      have : (m.buf i).valid = false := nobody i rfl
      simp [solo.valid i member] at this
    change Function.update m.disk (m.buf i).addr (m.buf i).data a = content a
    rw [Function.update_of_ne apart]
    exact solo.uncached a nobody
  · have apart : j ≠ i := fun equal => loose (equal ▸ member)
    have different : (m.buf j).addr ≠ (m.buf i).addr := fun same =>
      apart (solo.unique isValid (solo.valid i member) same)
    change Function.update m.disk (m.buf i).addr (m.buf i).data (m.buf j).addr = (m.buf j).data
    rw [Function.update_of_ne different]
    exact solo.clean j isValid loose unreferenced

/-- Releasing a held buffer that agrees with its disk or that something else
references. -/
theorem brelse (solo : Solo pid content weight referenced held m) {i : Fin NBUF}
    (member : i ∈ held)
    (kept : (m.buf i).addr ∈ referenced ∨ m.disk (m.buf i).addr = (m.buf i).data) :
    ∃ m', m.brelse pid i = .ok m' ∧ Solo pid content weight referenced (held.erase i) m' ∧
      (∀ j, j ≠ i → m'.buf j = m.buf j) ∧ m'.disk = m.disk ∧ m'.writes = m.writes := by
  obtain ⟨order, ordered⟩ := solo.order
  have isValid := solo.valid i member
  let unlocked := m.update i fun b => { b with lock := none }
  have released : m.brelse pid i = .ok (unlocked.drop i) := by
    simp only [BlockLayer.brelse, BlockLayer.releasesleep, solo.holdingsleep member]
    rfl
  have bufAt : ∀ j, (unlocked.drop i).buf j = if j = i then
      { m.buf i with lock := none, refcnt := (m.buf i).refcnt - 1 } else m.buf j := fun j => by
    rw [BlockLayer.drop_buf]
    by_cases same : j = i <;> simp [unlocked, same]
  have fields : ∀ j, ((unlocked.drop i).buf j).addr = (m.buf j).addr ∧
      ((unlocked.drop i).buf j).valid = (m.buf j).valid ∧
      ((unlocked.drop i).buf j).data = (m.buf j).data := fun j => by
    rw [bufAt]
    split
    · next same => subst same; exact ⟨rfl, rfl, rfl⟩
    · exact ⟨rfl, rfl, rfl⟩
  have disk : (unlocked.drop i).disk = m.disk := BlockLayer.drop_disk _ _
  refine ⟨_, released, ⟨?_, solo.nodup.erase i, solo.nonzero, fun j => ?_, fun j => ?_,
    fun j place => ?_, fun a place => ?_, fun j valid => ?_, fun a nobody => ?_,
    fun j valid loose unreferenced => ?_⟩, fun j apart => by simp [bufAt, apart], disk,
    BlockLayer.drop_writes _ _⟩
  · have first := ordered.update_of_active i (f := fun b => { b with lock := none }) rfl id
    have second := first.update_of_active i (f := fun b => { b with refcnt := b.refcnt - 1 }) rfl
      fun _ => .inl (by simpa [Bcache.update, BlockLayer.buf] using isValid)
    unfold BlockLayer.drop
    simp only
    split
    · refine second.moveFront fun j same active => ?_
      refine second.unique same active (.inl ?_)
      simpa [Bcache.update, BlockLayer.buf] using isValid
    · exact ⟨order, second⟩
  · rw [bufAt]
    by_cases same : j = i
    · simp [same, solo.nodup.not_mem_erase]
    · simp [same, solo.lock, List.mem_erase_of_ne same]
  · rw [(fields j).1, (fields j).2.1, bufAt]
    by_cases same : j = i
    · subst same
      simp [solo.refcnt j, member, solo.nodup.not_mem_erase]
    · simp [same, solo.refcnt j, List.mem_erase_of_ne same]
  · rw [(fields j).2.1]
    exact solo.valid j (List.mem_of_mem_erase place)
  · obtain ⟨j, valid, same⟩ := solo.present a place
    exact ⟨j, (fields j).2.1.trans valid, (fields j).1.trans same⟩
  · rw [(fields j).2.2, (fields j).1]
    exact solo.cached j ((fields j).2.1 ▸ valid)
  · rw [disk]
    exact solo.uncached a fun j same => (fields j).2.1 ▸ nobody j ((fields j).1.trans same)
  · rw [disk, (fields j).1, (fields j).2.2]
    rw [(fields j).1] at unreferenced
    rw [(fields j).2.1] at valid
    by_cases same : j = i
    · subst same
      exact kept.resolve_left unreferenced
    · exact solo.clean j valid (fun place => loose ((List.mem_erase_of_ne same).mpr place))
        unreferenced

end Solo

end Riscv2os.Xv7
