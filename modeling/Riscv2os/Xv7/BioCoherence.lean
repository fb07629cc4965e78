import Riscv2os.Xv7.BioOrder
import Riscv2os.Xv7.BioSystem

/-!
# The invariant of the buffer cache

`BioInv` is what every interleaving of callers keeps true: the order of the
ring, the count of every buffer as the number of its outstanding references,
and the label, lock and validity that each phase of a call relies on.
-/

namespace Riscv2os.Xv7

open Riscv2os.Std

private theorem countP_cons_toNat {α : Type} (p : α → Bool) (head : α) (items : List α) :
    (head :: items).countP p = items.countP p + (p head).toNat := by
  rw [List.countP_cons]
  cases p head <;> rfl

/-- Replacing one member of a list changes a count by that member. -/
private theorem countP_replace {α : Type} [DecidableEq α] {items : List α} {old : α} (new : α)
    (member : old ∈ items) (p : α → Bool) :
    (new :: items.erase old).countP p + (p old).toNat = items.countP p + (p new).toNat := by
  have whole := (List.perm_cons_erase member).countP_eq p
  rw [countP_cons_toNat] at whole ⊢
  omega

namespace BioState

/-- Number of callers that are past `acquiresleep` on a buffer. -/
def lockers (s : BioState) (i : Fin NBUF) : Nat :=
  s.refs.countP fun r => decide (r.buf = i) && r.phase.locked

theorem outstanding_le (s : BioState) (i : Fin NBUF) :
    s.outstanding i ≤ s.refs.length + s.pins.length :=
  Nat.add_le_add List.countP_le_length List.count_le_length

end BioState

/-- What every run of callers keeps true of the cache. -/
structure BioInv (s : BioState) : Prop where
  order : ∃ order, CacheOrder s.layer.bcache order
  refcnt : ∀ i, (s.buf i).refcnt = ((s.outstanding i : Nat) : BitVec 32)
  room : s.refs.length + s.pins.length < 2 ^ 32
  label : ∀ r ∈ s.refs, (s.buf r.buf).addr = r.addr
  lock : ∀ r ∈ s.refs, r.phase.locked = true → (s.buf r.buf).lock = some r.pid
  lockOnce : ∀ i, s.lockers i ≤ if (s.buf i).lock = none then 0 else 1
  filled : ∀ r ∈ s.refs, r.phase.filled = true → (s.buf r.buf).valid = true
  pinned : ∀ i ∈ s.pins, (s.buf i).valid = true

namespace BioInv

variable {s : BioState}

/-- The count has not wrapped: it is the number of outstanding references. -/
theorem toNat_refcnt (inv : BioInv s) (i : Fin NBUF) :
    (s.buf i).refcnt.toNat = s.outstanding i := by
  have bound := s.outstanding_le i
  have room := inv.room
  rw [inv.refcnt i, BitVec.natCast_eq_ofNat, BitVec.toNat_ofNat, Nat.mod_eq_of_lt (by omega)]

/-- The count is zero exactly for a buffer nobody references. -/
theorem refcnt_eq_zero (inv : BioInv s) (i : Fin NBUF) :
    (s.buf i).refcnt = 0 ↔ s.outstanding i = 0 := by
  rw [← inv.toNat_refcnt i]
  exact ⟨fun zero => by rw [zero]; rfl, fun zero => BitVec.eq_of_toNat_eq (by simpa using zero)⟩

theorem refcnt_ne_zero_of_ref (inv : BioInv s) {r : Ref} (member : r ∈ s.refs) :
    (s.buf r.buf).refcnt ≠ 0 := by
  rw [ne_eq, inv.refcnt_eq_zero, BioState.outstanding]
  have : 0 < s.refs.countP fun x => decide (x.buf = r.buf) :=
    List.countP_pos_iff.mpr ⟨r, member, by simp⟩
  omega

theorem refcnt_ne_zero_of_pin (inv : BioInv s) {i : Fin NBUF} (member : i ∈ s.pins) :
    (s.buf i).refcnt ≠ 0 := by
  rw [ne_eq, inv.refcnt_eq_zero, BioState.outstanding]
  have := List.count_pos_iff.mpr member
  omega

/-- At most one buffer that is valid or held represents a block. -/
theorem unique (inv : BioInv s) {i j : Fin NBUF} (same : (s.buf i).addr = (s.buf j).addr)
    (activeI : (s.buf i).Active) (activeJ : (s.buf j).Active) : i = j := by
  obtain ⟨order, ordered⟩ := inv.order
  exact ordered.unique same activeI activeJ

/-- The holder of a buffer has its sleeplock, so `bwrite` and `brelse` do not
panic. -/
theorem holdingsleep (inv : BioInv s) {r : Ref} (member : r ∈ s.refs)
    (phase : r.phase = .holding) : s.layer.holdingsleep r.pid r.buf = true := by
  have locked := inv.lock r member (by rw [phase]; rfl)
  simp [BlockLayer.holdingsleep, BioState.buf] at locked ⊢
  exact locked

/-- A buffer with no outstanding reference is in nobody's hands. -/
theorem unreferenced {i : Fin NBUF} (zero : s.outstanding i = 0) :
    (∀ r ∈ s.refs, r.buf ≠ i) ∧ i ∉ s.pins := by
  simp only [BioState.outstanding, Nat.add_eq_zero_iff, List.countP_eq_zero,
    List.count_eq_zero] at zero
  exact ⟨fun r member => by simpa using zero.1 r member, zero.2⟩

/-- A call that moves on changes no count of references. -/
theorem outstanding_advance {r : Ref} (member : r ∈ s.refs) (phase : Phase)
    (layer : BlockLayer) (i : Fin NBUF) :
    (s.advance r phase layer).outstanding i = s.outstanding i := by
  have counts : (r.at phase :: s.refs.erase r).countP (fun x => decide (x.buf = i)) +
      (decide (r.buf = i)).toNat =
      s.refs.countP (fun x => decide (x.buf = i)) + (decide (r.buf = i)).toNat :=
    countP_replace (r.at phase) member fun x => decide (x.buf = i)
  simp only [BioState.outstanding, BioState.advance]
  omega

theorem length_advance {r : Ref} (member : r ∈ s.refs) (phase : Phase) (layer : BlockLayer) :
    (s.advance r phase layer).refs.length = s.refs.length := by
  have := List.length_pos_of_mem member
  simp only [BioState.advance, List.length_cons, List.length_erase_of_mem member]
  omega

theorem lockers_advance {r : Ref} (member : r ∈ s.refs) (phase : Phase)
    (layer : BlockLayer) (i : Fin NBUF) :
    (s.advance r phase layer).lockers i + (decide (r.buf = i) && r.phase.locked).toNat =
      s.lockers i + (decide (r.buf = i) && phase.locked).toNat :=
  countP_replace (r.at phase) member fun x => decide (x.buf = i) && x.phase.locked

theorem mem_advance {r x : Ref} {phase : Phase} {layer : BlockLayer}
    (member : x ∈ (s.advance r phase layer).refs) : x = r.at phase ∨ x ∈ s.refs.erase r :=
  List.mem_cons.mp member

/-- A call moves on while its own buffer changes by `f`, which keeps label and
count. The premises are what the new phase and the other callers need. -/
private theorem advance_update (inv : BioInv s) {r : Ref} (member : r ∈ s.refs) {phase : Phase}
    {f : Buf → Buf} (addr : (f (s.buf r.buf)).addr = (s.buf r.buf).addr)
    (refcnt : (f (s.buf r.buf)).refcnt = (s.buf r.buf).refcnt)
    (valid : (s.buf r.buf).valid = true → (f (s.buf r.buf)).valid = true)
    (filled : phase.filled = true → (f (s.buf r.buf)).valid = true)
    (lock : phase.locked = true → (f (s.buf r.buf)).lock = some r.pid)
    (others : ∀ x ∈ s.refs.erase r, x.buf = r.buf → x.phase.locked = true →
      (f (s.buf r.buf)).lock = some x.pid)
    (once : (s.advance r phase s.layer).lockers r.buf ≤
      if (f (s.buf r.buf)).lock = none then 0 else 1) :
    BioInv (s.advance r phase (s.layer.update r.buf f)) := by
  obtain ⟨order, ordered⟩ := inv.order
  have bufAt : ∀ i, (s.advance r phase (s.layer.update r.buf f)).buf i =
      if i = r.buf then f (s.buf r.buf) else s.buf i := fun i => by
    simp [BioState.advance, BioState.buf]
  refine ⟨⟨order, ?_⟩, fun i => ?_, ?_, fun x place => ?_, fun x place isLocked => ?_,
    fun i => ?_, fun x place isFilled => ?_, fun i place => ?_⟩
  · exact ordered.update_of_active _ addr fun _ => .inr (inv.refcnt_ne_zero_of_ref member)
  · rw [outstanding_advance member, ← inv.refcnt i, bufAt]
    split
    · next same => rw [same, refcnt]
    · rfl
  · rw [length_advance member]
    exact inv.room
  · rw [bufAt]
    rcases mem_advance place with rfl | old
    · simpa [addr] using inv.label r member
    · have := inv.label x (List.mem_of_mem_erase old)
      split
      · next same => rw [addr, ← same, this]
      · exact this
  · rw [bufAt]
    rcases mem_advance place with rfl | old
    · simpa using lock isLocked
    · split
      · next same => exact others x old same isLocked
      · exact inv.lock x (List.mem_of_mem_erase old) isLocked
  · rw [bufAt]
    split
    · next same => exact same ▸ once
    · next apart =>
      have := lockers_advance member phase (s.layer.update r.buf f) i
      have bound := inv.lockOnce i
      simp only [Ne.symm apart, decide_false, Bool.false_and, Bool.toNat_false] at this
      omega
  · rw [bufAt]
    rcases mem_advance place with rfl | old
    · simpa using filled isFilled
    · have := inv.filled x (List.mem_of_mem_erase old) isFilled
      split
      · next same => exact valid (same ▸ this)
      · exact this
  · rw [bufAt]
    have := inv.pinned i place
    split
    · next same => exact valid (same ▸ this)
    · exact this

/-- `acquiresleep` gives its caller the sleeplock. -/
theorem acquiresleep (inv : BioInv s) {r : Ref} {layer : BlockLayer} (member : r ∈ s.refs)
    (phase : r.phase = .waiting) (acquired : s.layer.acquiresleep r.pid r.buf = .ok layer) :
    BioInv (s.advance r .filling layer) := by
  unfold BlockLayer.acquiresleep at acquired
  split at acquired
  · cases acquired
  next free =>
  cases acquired
  have noLocker : s.lockers r.buf = 0 := by
    have := inv.lockOnce r.buf
    simpa [BioState.buf, free] using this
  apply inv.advance_update member rfl rfl id
  · intro impossible
    cases impossible
  · intro _
    rfl
  · intro x place same isLocked
    have : 0 < s.lockers r.buf := List.countP_pos_iff.mpr
      ⟨x, List.mem_of_mem_erase place, by simp [same, isLocked]⟩
    omega
  · have := lockers_advance member .filling s.layer r.buf
    simp [phase, Phase.locked] at this ⊢
    omega

/-- The rest of `bread` makes the buffer valid. -/
theorem fill (inv : BioInv s) {r : Ref} (member : r ∈ s.refs) (phase : r.phase = .filling) :
    BioInv (s.advance r .holding (s.layer.fill r.buf)) := by
  have locked : (s.buf r.buf).lock = some r.pid := inv.lock r member (by rw [phase]; rfl)
  rw [BlockLayer.fill_eq]
  apply inv.advance_update member
  · split <;> rfl
  · split <;> rfl
  · intro valid
    simp [valid]
  · intro _
    split
    · assumption
    · rfl
  · intro _
    split <;> exact locked
  · intro x place same isLocked
    have := inv.lock x (List.mem_of_mem_erase place) isLocked
    rw [same] at this
    split <;> exact this
  · have counts := lockers_advance member .holding s.layer r.buf
    have bound := inv.lockOnce r.buf
    simp only [phase, Phase.locked] at counts
    have lock : ∀ b : Buf, (if b.valid then b else
        { b with data := s.layer.disk b.addr, valid := true }).lock = b.lock := fun b => by
      split <;> rfl
    rw [lock]
    omega

/-- `releasesleep` leaves nobody with the sleeplock. -/
theorem releasesleep (inv : BioInv s) {r : Ref} {layer : BlockLayer} (member : r ∈ s.refs)
    (phase : r.phase = .holding) (released : s.layer.releasesleep r.pid r.buf = .ok layer) :
    BioInv (s.advance r .leaving layer) := by
  unfold BlockLayer.releasesleep at released
  split at released
  swap
  · cases released
  cases released
  have locked : (s.buf r.buf).lock = some r.pid := inv.lock r member (by rw [phase]; rfl)
  have counts := lockers_advance member .leaving s.layer r.buf
  have bound := inv.lockOnce r.buf
  simp only [locked, phase, Phase.locked, decide_true, Bool.true_and, Bool.toNat_true,
    Bool.and_false, Bool.toNat_false, reduceCtorEq, if_false] at counts bound
  have nobody : (s.advance r .leaving s.layer).lockers r.buf = 0 := by omega
  apply inv.advance_update member rfl rfl id
  · intro _
    exact inv.filled r member (by rw [phase]; rfl)
  · intro impossible
    cases impossible
  · intro x place same isLocked
    have : 0 < (s.advance r .leaving s.layer).lockers r.buf := List.countP_pos_iff.mpr
      ⟨x, List.mem_cons_of_mem _ place, by simp [same, isLocked]⟩
    omega
  · simp [nobody]

/-- One more reference to a buffer that changes by `f`. When `f` changes label or
validity, nobody may have a reference yet. -/
private theorem reference (inv : BioInv s) {r : Ref} {f : Buf → Buf} (waiting : r.phase = .waiting)
    (order : ∃ order, CacheOrder (s.layer.bcache.update r.buf f) order)
    (refcnt : (f (s.buf r.buf)).refcnt = (s.buf r.buf).refcnt + 1)
    (lock : (f (s.buf r.buf)).lock = (s.buf r.buf).lock)
    (label : (f (s.buf r.buf)).addr = r.addr)
    (kept : s.outstanding r.buf ≠ 0 → (f (s.buf r.buf)).addr = (s.buf r.buf).addr ∧
      (f (s.buf r.buf)).valid = (s.buf r.buf).valid)
    (room : s.refs.length + s.pins.length + 1 < 2 ^ 32) :
    BioInv { s with layer := s.layer.update r.buf f, refs := r :: s.refs } := by
  have bufAt : ∀ i, (s.layer.update r.buf f).buf i =
      if i = r.buf then f (s.buf r.buf) else s.buf i := s.layer.update_buf r.buf (f := f)
  have used : ∀ x ∈ s.refs, x.buf = r.buf → s.outstanding r.buf ≠ 0 := fun x member same zero =>
    (unreferenced zero).1 x member same
  refine ⟨order, fun i => ?_, ?_, fun x place => ?_, fun x place isLocked => ?_,
    fun i => ?_, fun x place isFilled => ?_, fun i place => ?_⟩
  · simp only [BioState.buf, BioState.outstanding, countP_cons_toNat, bufAt]
    have counted := inv.refcnt i
    simp only [BioState.outstanding] at counted
    split
    · next same =>
      subst same
      rw [refcnt, counted]
      push_cast
      simp
      ring
    · next apart => simpa [Ne.symm apart] using counted
  · simp only [List.length_cons]
    omega
  · simp only [BioState.buf, bufAt]
    rcases List.mem_cons.mp place with rfl | old
    · simpa using label
    · have := inv.label x old
      split
      · next same => rw [(kept (used x old same)).1, ← same, this]
      · exact this
  · simp only [BioState.buf, bufAt]
    rcases List.mem_cons.mp place with rfl | old
    · simp [waiting, Phase.locked] at isLocked
    · have := inv.lock x old isLocked
      split
      · next same => rw [lock, ← same, this]
      · exact this
  · simp only [BioState.buf, BioState.lockers, countP_cons_toNat, bufAt]
    have := inv.lockOnce i
    simp only [BioState.lockers] at this
    split
    · next same =>
      subst same
      simpa [waiting, Phase.locked, lock] using this
    · simpa [waiting, Phase.locked] using this
  · simp only [BioState.buf, bufAt]
    rcases List.mem_cons.mp place with rfl | old
    · simp [waiting, Phase.filled] at isFilled
    · have := inv.filled x old isFilled
      split
      · next same => rw [(kept (used x old same)).2, ← same, this]
      · exact this
  · simp only [BioState.buf, bufAt]
    have := inv.pinned i place
    split
    · next same =>
      have : s.outstanding r.buf ≠ 0 := fun zero => (unreferenced zero).2 (same ▸ place)
      rw [(kept this).2, ← same]
      exact inv.pinned i place
    · exact this

/-- `bget` references the buffer it returns. -/
theorem bget (inv : BioInv s) {pid slot dev blockno : Nat} {i : Fin NBUF} {layer : BlockLayer}
    (room : s.refs.length + s.pins.length + 1 < 2 ^ 32)
    (got : s.layer.bget dev blockno = .ok (i, layer)) :
    BioInv { s with
      layer := layer, refs := ⟨pid, slot, dev, blockno, i, .waiting⟩ :: s.refs } := by
  obtain ⟨order, ordered⟩ := inv.order
  rcases BlockLayer.bget_cases ordered got with ⟨found, rfl⟩ | ⟨fresh, zero, rfl⟩
  · have label : (s.buf i).addr = ⟨dev, blockno⟩ := by simpa using List.find?_some found
    refine inv.reference (r := ⟨pid, slot, dev, blockno, i, .waiting⟩) rfl ⟨order, ?_⟩ rfl rfl
      label (fun _ => ⟨rfl, rfl⟩) room
    apply ordered.update_first
    · rfl
    · rw [← found, ← label]
      rfl
  · refine inv.reference (r := ⟨pid, slot, dev, blockno, i, .waiting⟩) rfl ⟨order, ?_⟩ ?_ rfl rfl
      (fun used => absurd ((inv.refcnt_eq_zero i).mp zero) used) room
    · apply ordered.update_relabel
      exact fresh
    · change 1 = (s.layer.buf i).refcnt + 1
      rw [zero]
      rfl

/-- The last critical section of `brelse` ends one reference. -/
theorem drop (inv : BioInv s) {r : Ref} (member : r ∈ s.refs) (leaving : r.phase = .leaving) :
    BioInv { s with layer := s.layer.drop r.buf, refs := s.refs.erase r } := by
  obtain ⟨order, ordered⟩ := inv.order
  have fields : ∀ i, ((s.layer.drop r.buf).buf i).addr = (s.buf i).addr ∧
      ((s.layer.drop r.buf).buf i).lock = (s.buf i).lock ∧
      ((s.layer.drop r.buf).buf i).valid = (s.buf i).valid := fun i => by
    rw [BlockLayer.drop_buf]
    split
    · next same => subst same; exact ⟨rfl, rfl, rfl⟩
    · exact ⟨rfl, rfl, rfl⟩
  have whole := List.perm_cons_erase member
  refine ⟨?_, fun i => ?_, ?_, fun x place => ?_, fun x place isLocked => ?_,
    fun i => ?_, fun x place isFilled => ?_, fun i place => ?_⟩
  · have active := inv.refcnt_ne_zero_of_ref member
    have dropped := ordered.update_of_active r.buf (f := fun b => { b with refcnt := b.refcnt - 1 })
      rfl fun _ => .inr active
    unfold BlockLayer.drop
    simp only
    split
    · refine dropped.moveFront fun j same activeJ => ?_
      by_contra apart
      simp only [Bcache.update, Function.update_self, Function.update_of_ne apart] at same activeJ
      exact apart (ordered.unique same activeJ (.inr active))
    · exact ⟨order, dropped⟩
  · have counted := inv.refcnt i
    have counts := whole.countP_eq fun x => decide (x.buf = i)
    rw [countP_cons_toNat] at counts
    simp only [BioState.buf, BioState.outstanding, BlockLayer.drop_buf] at counted counts ⊢
    split
    · next same =>
      subst same
      rw [counted, counts]
      push_cast
      simp
      ring
    · next apart =>
      simp only [Ne.symm apart, decide_false, Bool.toNat_false, Nat.add_zero] at counts
      rw [← counts, counted]
  · have := inv.room
    have := whole.length_eq
    simp only [List.length_cons] at this ⊢
    omega
  · exact (fields x.buf).1.trans (inv.label x (List.mem_of_mem_erase place))
  · exact (fields x.buf).2.1.trans (inv.lock x (List.mem_of_mem_erase place) isLocked)
  · have counts := whole.countP_eq fun x => decide (x.buf = i) && x.phase.locked
    have bound := inv.lockOnce i
    simp only [countP_cons_toNat, leaving, Phase.locked, Bool.and_false, Bool.toNat_false,
      Nat.add_zero] at counts
    simp only [BioState.buf, BioState.lockers, (fields i).2.1] at bound ⊢
    exact counts ▸ bound
  · exact (fields x.buf).2.2.trans (inv.filled x (List.mem_of_mem_erase place) isFilled)
  · exact (fields i).2.2.trans (inv.pinned i place)

/-- A buffer in somebody's hands changes nothing but its data and its count, and
the pins change by what the count changes. -/
private theorem change (inv : BioInv s) {i : Fin NBUF} {f : Buf → Buf} {pins : List (Fin NBUF)}
    (active : (s.buf i).Active) (addr : (f (s.buf i)).addr = (s.buf i).addr)
    (lock : (f (s.buf i)).lock = (s.buf i).lock) (valid : (f (s.buf i)).valid = (s.buf i).valid)
    (refcnt : ∀ j, ((s.layer.update i f).buf j).refcnt =
      ((s.refs.countP (fun r => r.buf = j) + pins.count j : Nat) : BitVec 32))
    (room : s.refs.length + pins.length < 2 ^ 32)
    (pinned : ∀ j ∈ pins, (s.buf j).valid = true) (written : Disk) (modified : Finset (Fin NBUF)) :
    BioInv ⟨s.layer.update i f, s.refs, pins, written, modified⟩ := by
  obtain ⟨order, ordered⟩ := inv.order
  have fields : ∀ j, ((s.layer.update i f).buf j).addr = (s.buf j).addr ∧
      ((s.layer.update i f).buf j).lock = (s.buf j).lock ∧
      ((s.layer.update i f).buf j).valid = (s.buf j).valid := fun j => by
    rw [BlockLayer.update_buf]
    split
    · next same => subst same; exact ⟨addr, lock, valid⟩
    · exact ⟨rfl, rfl, rfl⟩
  refine ⟨⟨order, ordered.update_of_active i addr fun _ => active⟩, refcnt, room,
    fun x place => (fields x.buf).1.trans (inv.label x place),
    fun x place isLocked => (fields x.buf).2.1.trans (inv.lock x place isLocked), fun j => ?_,
    fun x place isFilled => (fields x.buf).2.2.trans (inv.filled x place isFilled),
    fun j place => (fields j).2.2.trans (pinned j place)⟩
  have := inv.lockOnce j
  simp only [BioState.buf, BioState.lockers, (fields j).2.1] at this ⊢
  exact this

/-- The holder of a buffer changes its data. -/
theorem modify (inv : BioInv s) {r : Ref} (member : r ∈ s.refs) (data : Block) (written : Disk)
    (modified : Finset (Fin NBUF)) :
    BioInv ⟨s.layer.setData r.buf data, s.refs, s.pins, written, modified⟩ := by
  refine inv.change (.inr (inv.refcnt_ne_zero_of_ref member)) rfl rfl rfl (fun j => ?_) inv.room
    inv.pinned written modified
  rw [BlockLayer.update_buf]
  split
  · next same =>
    subst same
    exact inv.refcnt r.buf
  · exact inv.refcnt j

/-- A disk write changes nothing in the cache. -/
theorem bwrite (inv : BioInv s) {pid : Nat} {i : Fin NBUF} {layer : BlockLayer}
    (wrote : s.layer.bwrite pid i = .ok layer) (modified : Finset (Fin NBUF)) :
    BioInv { s with layer := layer, modified := modified } := by
  unfold BlockLayer.bwrite at wrote
  split at wrote
  · cases wrote
    exact ⟨inv.order, inv.refcnt, inv.room, inv.label, inv.lock, inv.lockOnce, inv.filled,
      inv.pinned⟩
  · cases wrote

/-- The holder of a buffer pins it. -/
theorem bpin (inv : BioInv s) {r : Ref} (member : r ∈ s.refs) (phase : r.phase = .holding)
    (room : s.refs.length + s.pins.length + 1 < 2 ^ 32) :
    BioInv { s with layer := s.layer.bpin r.buf, pins := r.buf :: s.pins } := by
  refine inv.change (.inr (inv.refcnt_ne_zero_of_ref member)) rfl rfl rfl (fun j => ?_)
    (by simp only [List.length_cons]; omega) (fun j place => ?_) s.written s.modified
  · have counted := inv.refcnt j
    rw [BlockLayer.update_buf]
    simp only [BioState.buf, BioState.outstanding, List.count_cons] at counted ⊢
    split
    · next same =>
      subst same
      rw [counted]
      push_cast
      simp
      ring
    · next apart => simpa [Ne.symm apart] using counted
  · rcases List.mem_cons.mp place with rfl | old
    · exact inv.filled r member (by rw [phase]; rfl)
    · exact inv.pinned j old

/-- Undoing a pin. -/
theorem bunpin (inv : BioInv s) {i : Fin NBUF} (member : i ∈ s.pins) :
    BioInv { s with layer := s.layer.bunpin i, pins := s.pins.erase i } := by
  have shorter := List.length_erase_of_mem member
  have room := inv.room
  refine inv.change (.inr (inv.refcnt_ne_zero_of_pin member)) rfl rfl rfl (fun j => ?_)
    (by omega) (fun j place => inv.pinned j (List.mem_of_mem_erase place)) s.written s.modified
  have counted := inv.refcnt j
  rw [BlockLayer.update_buf]
  simp only [BioState.buf, BioState.outstanding, List.count_erase] at counted ⊢
  split
  · next same =>
    subst same
    have positive := List.count_pos_iff.mpr member
    change (s.layer.buf j).refcnt - 1 = _
    obtain ⟨rest, split⟩ : ∃ rest, s.pins.count j = rest + 1 := ⟨_, (Nat.sub_add_cancel positive).symm⟩
    rw [counted, split]
    push_cast
    simp
    ring
  · next apart => simpa [Ne.symm apart] using counted

/-- The invariant holds at boot. -/
theorem initial (valid : bioSystem.Initial s) : BioInv s := by
  obtain ⟨cache, refs, pins, _, _⟩ := valid
  have boot : ∀ i, s.buf i = {} := fun i => by
    rw [BioState.buf, BlockLayer.buf, cache]
    rfl
  refine ⟨cache ▸ binit_order, fun i => ?_, by simp [refs, pins], ?_, ?_, fun i => ?_, ?_, ?_⟩
  · rw [boot]
    simp [BioState.outstanding, refs, pins]
  · simp [refs]
  · simp [refs]
  · simp [BioState.lockers, refs]
  · simp [refs]
  · simp [pins]

/-- Every action of every caller keeps the invariant. -/
theorem preserved {act : BioAct} {next : BioState} (inv : BioInv s) (room : CounterRoom s act)
    (step : BioStep s act next) : BioInv next := by
  cases step with
  | bget unused got => exact inv.bget room got
  | acquiresleep member phase acquired => exact inv.acquiresleep member phase acquired
  | fill member phase => exact inv.fill member phase
  | modify member phase => exact inv.modify member _ _ _
  | bwrite member phase wrote => exact inv.bwrite wrote _
  | releasesleep member phase released => exact inv.releasesleep member phase released
  | drop member phase => exact inv.drop member phase
  | bpin member phase => exact inv.bpin member phase room
  | bunpin member => exact inv.bunpin member

end BioInv

/-- The cache invariant holds in every state of every run whose counters have room. -/
theorem bioInv_of_run {s : BioState} (run : bioSystem.ReachableUnder CounterRoom s) : BioInv s :=
  run.invariant ⟨BioInv.initial, BioInv.preserved⟩

end Riscv2os.Xv7
