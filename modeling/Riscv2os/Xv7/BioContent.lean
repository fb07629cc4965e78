import Riscv2os.Std.Loops
import Riscv2os.Xv7.BioCoherence

/-!
# What `bread` returns

`ContentInv` relates the cache and the disks to the content last written
through the cache: a valid buffer has it, the disk has it for every block
without a valid buffer, and a valid buffer that is not changed since its last
`bwrite` agrees with its disk. A changed buffer is held or pinned, so that
recycling loses nothing.
-/

namespace Riscv2os.Xv7

open Riscv2os.Std

/-- A caller has the buffer, or a pin keeps it. -/
def BioState.Held (s : BioState) (i : Fin NBUF) : Prop :=
  (∃ r ∈ s.refs, r.buf = i) ∨ i ∈ s.pins

theorem BioInv.active_of_held {s : BioState} (inv : BioInv s) {i : Fin NBUF} (held : s.Held i) :
    (s.buf i).Active := by
  rcases held with ⟨r, member, rfl⟩ | pinned
  · exact .inr (inv.refcnt_ne_zero_of_ref member)
  · exact .inr (inv.refcnt_ne_zero_of_pin pinned)

/-- The cache and the disks agree on the content of every block. -/
structure ContentInv (s : BioState) : Prop where
  cached : ∀ i, (s.buf i).valid = true → (s.buf i).data = s.written (s.buf i).addr
  uncached : ∀ a, (∀ i, (s.buf i).addr = a → (s.buf i).valid = false) →
    s.layer.disk a = s.written a
  clean : ∀ i, (s.buf i).valid = true → i ∉ s.modified → s.layer.disk (s.buf i).addr = (s.buf i).data
  kept : ∀ i ∈ s.modified, (∃ r ∈ s.refs, r.buf = i ∧ r.phase = .holding) ∨ i ∈ s.pins

/-- A change of locks and counts is no change of content. -/
private theorem update_fields (m : BlockLayer) {i : Fin NBUF} {f : Buf → Buf}
    (same : (f (m.buf i)).addr = (m.buf i).addr ∧ (f (m.buf i)).valid = (m.buf i).valid ∧
      (f (m.buf i)).data = (m.buf i).data) (j : Fin NBUF) :
    ((m.update i f).buf j).addr = (m.buf j).addr ∧
      ((m.update i f).buf j).valid = (m.buf j).valid ∧
      ((m.update i f).buf j).data = (m.buf j).data := by
  rw [BlockLayer.update_buf]
  split
  · next equal => exact equal ▸ same
  · exact ⟨rfl, rfl, rfl⟩

namespace ContentInv

variable {s : BioState}

/-- Actions that leave labels, validity, data and disks alone keep the content,
as long as they release or unpin no changed buffer that nothing else keeps. -/
private theorem of_same {next : BioState} (content : ContentInv s)
    (fields : ∀ i, (next.buf i).addr = (s.buf i).addr ∧
      (next.buf i).valid = (s.buf i).valid ∧ (next.buf i).data = (s.buf i).data)
    (disk : next.layer.disk = s.layer.disk) (written : next.written = s.written)
    (modified : next.modified = s.modified)
    (kept : ∀ i ∈ s.modified, (∃ r ∈ next.refs, r.buf = i ∧ r.phase = .holding) ∨ i ∈ next.pins) :
    ContentInv next where
  cached i isValid := by
    rw [(fields i).2.2, written, (fields i).1]
    exact content.cached i ((fields i).2.1 ▸ isValid)
  uncached a nobody := by
    rw [disk, written]
    exact content.uncached a fun i same => (fields i).2.1 ▸ nobody i ((fields i).1.trans same)
  clean i isValid unchanged := by
    rw [(fields i).2.1] at isValid
    rw [modified] at unchanged
    rw [disk, (fields i).1, (fields i).2.2]
    exact content.clean i isValid unchanged
  kept i changed := by
    rw [modified] at changed
    exact kept i changed

/-- A changed buffer is kept by its holder, so that other calls may move on. -/
private theorem kept_of_moved (content : ContentInv s) {r : Ref} {refs : List Ref}
    (idle : r.phase ≠ .holding) (stays : ∀ x ∈ s.refs, x ≠ r → x ∈ refs) :
    ∀ i ∈ s.modified, (∃ x ∈ refs, x.buf = i ∧ x.phase = .holding) ∨ i ∈ s.pins := by
  intro i changed
  rcases content.kept i changed with ⟨x, place, same, held⟩ | pinned
  · refine .inl ⟨x, stays x place ?_, same, held⟩
    rintro rfl
    exact idle held
  · exact .inr pinned

/-- `bget` recycles only buffers that agree with the disk. -/
private theorem bget (content : ContentInv s) (inv : BioInv s) {pid slot dev blockno : Nat}
    {i : Fin NBUF} {layer : BlockLayer} (got : s.layer.bget dev blockno = .ok (i, layer)) :
    ContentInv { s with
      layer := layer, refs := ⟨pid, slot, dev, blockno, i, .waiting⟩ :: s.refs } := by
  obtain ⟨order, ordered⟩ := inv.order
  have kept : ∀ j ∈ s.modified, (∃ r ∈ ⟨pid, slot, dev, blockno, i, .waiting⟩ :: s.refs,
      r.buf = j ∧ r.phase = .holding) ∨ j ∈ s.pins := fun j changed =>
    (content.kept j changed).imp_left fun ⟨r, member, held⟩ => ⟨r, List.mem_cons_of_mem _ member, held⟩
  rcases BlockLayer.bget_cases ordered got with ⟨_, rfl⟩ | ⟨fresh, zero, rfl⟩
  · exact content.of_same (update_fields s.layer ⟨rfl, rfl, rfl⟩) rfl rfl rfl kept
  · have nobody := BioInv.unreferenced ((inv.refcnt_eq_zero i).mp zero)
    have unchanged : i ∉ s.modified := fun changed => (content.kept i changed).elim
      (fun ⟨r, member, same, _⟩ => nobody.1 r member same) nobody.2
    have agrees : (s.buf i).valid = true → s.layer.disk (s.buf i).addr = (s.buf i).data :=
      fun isValid => content.clean i isValid unchanged
    refine ⟨fun j isValid => ?_, fun a none => ?_, fun j isValid clean => ?_, kept⟩
    · simp only [BioState.buf, BlockLayer.update_buf] at isValid ⊢
      split at isValid
      · cases isValid
      · next apart => simpa [apart] using content.cached j isValid
    · change s.layer.disk a = s.written a
      by_cases old : (s.buf i).valid = true ∧ (s.buf i).addr = a
      · rw [← old.2, agrees old.1, content.cached i old.1]
      · refine content.uncached a fun j same => ?_
        by_cases equal : j = i
        · subst equal
          simpa [same] using old
        · have := none j (by simpa [BioState.buf, equal] using same)
          simpa [BioState.buf, equal] using this
    · simp only [BioState.buf, BlockLayer.update_buf] at isValid ⊢
      split at isValid
      · cases isValid
      · next apart => simpa [apart] using content.clean j isValid clean

/-- `bread` fills an invalid buffer from a disk that has the content. -/
private theorem fill (content : ContentInv s) (inv : BioInv s) {r : Ref} (member : r ∈ s.refs)
    (phase : r.phase = .filling) : ContentInv (s.advance r .holding (s.layer.fill r.buf)) := by
  have bufAt : ∀ j, (s.layer.fill r.buf).buf j = if j = r.buf then
      (if (s.buf r.buf).valid then s.buf r.buf else
        { s.buf r.buf with data := s.layer.disk (s.buf r.buf).addr, valid := true })
      else s.buf j := fun j => by
    rw [BlockLayer.fill_eq, BlockLayer.update_buf]
  have disk : (s.layer.fill r.buf).disk = s.layer.disk := by
    rw [BlockLayer.fill_eq, BlockLayer.update_disk]
  refine ⟨fun j isValid => ?_, fun a nobody => ?_, fun j isValid clean => ?_, ?_⟩
  · simp only [BioState.advance, BioState.buf, bufAt] at isValid ⊢
    split
    · next same =>
      split
      · next wasValid => exact content.cached r.buf wasValid
      · next invalid =>
        -- no other buffer can represent the block, so the disk has its content
        refine content.uncached _ fun x label => ?_
        by_contra isValid
        have := inv.unique label (.inl (by simpa using isValid))
          (.inr (inv.refcnt_ne_zero_of_ref member))
        subst this
        exact isValid (by simpa using invalid)
    · next apart => exact content.cached j (by simpa [apart] using isValid)
  · simp only [BioState.advance, BioState.buf, bufAt, disk] at nobody ⊢
    refine content.uncached a fun j label => ?_
    have := nobody j
    by_cases same : j = r.buf
    · subst same
      by_cases wasValid : (s.layer.buf r.buf).valid = true
      · simp [wasValid] at this
        exact absurd label this
      · simpa using wasValid
    · simpa [same] using this (by simpa [same] using label)
  · simp only [BioState.advance, BioState.buf, bufAt, disk] at isValid ⊢
    split
    · next same =>
      subst same
      split
      · next wasValid => exact content.clean r.buf wasValid clean
      · rfl
    · next apart => exact content.clean j (by simpa [apart] using isValid) clean
  · exact content.kept_of_moved (by simp [phase]) fun x place moved =>
      List.mem_cons_of_mem _ ((List.mem_erase_of_ne moved).mpr place)

/-- The holder changes the content of its block. -/
private theorem modify (content : ContentInv s) (inv : BioInv s) {r : Ref} (member : r ∈ s.refs)
    (phase : r.phase = .holding) (data : Block) :
    ContentInv ⟨s.layer.setData r.buf data, s.refs, s.pins,
      Function.update s.written r.addr data, insert r.buf s.modified⟩ := by
  have label := inv.label r member
  have valid := inv.filled r member (by rw [phase]; rfl)
  have same : ∀ j, ((s.layer.setData r.buf data).buf j).addr = (s.buf j).addr ∧
      ((s.layer.setData r.buf data).buf j).valid = (s.buf j).valid := fun j => by
    rw [BlockLayer.setData, BlockLayer.update_buf]
    split
    · next equal => exact equal ▸ ⟨rfl, rfl⟩
    · exact ⟨rfl, rfl⟩
  refine ⟨fun j isValid => ?_, fun a nobody => ?_, fun j isValid clean => ?_, fun j changed => ?_⟩
  · simp only [BioState.buf, same] at isValid ⊢
    rw [BlockLayer.setData, BlockLayer.update_buf]
    split
    · next equal => rw [equal, label, Function.update_self]
    · next apart =>
      have different : (s.layer.buf j).addr ≠ r.addr := fun equal =>
        apart (inv.unique (equal.trans label.symm) (.inl isValid) (.inl valid))
      rw [Function.update_of_ne different]
      exact content.cached j isValid
  · simp only [BioState.buf, same] at nobody ⊢
    have different : a ≠ r.addr := by
      rintro rfl
      exact absurd valid (by simp [nobody r.buf label])
    rw [Function.update_of_ne different]
    exact content.uncached a nobody
  · obtain ⟨apart, clean⟩ := not_or.mp fun changed => clean (Finset.mem_insert.mpr changed)
    simp only [BioState.buf, BlockLayer.setData, BlockLayer.update_buf, if_neg apart] at isValid ⊢
    exact content.clean j isValid clean
  · rcases Finset.mem_insert.mp changed with rfl | before
    · exact .inl ⟨r, member, rfl, phase⟩
    · exact content.kept j before

/-- `bwrite` brings the disk up to date. -/
private theorem bwrite (content : ContentInv s) (inv : BioInv s) {r : Ref} {layer : BlockLayer}
    (member : r ∈ s.refs) (phase : r.phase = .holding)
    (wrote : s.layer.bwrite r.pid r.buf = .ok layer) :
    ContentInv { s with layer := layer, modified := s.modified.erase r.buf } := by
  unfold BlockLayer.bwrite at wrote
  split at wrote
  swap
  · cases wrote
  cases wrote
  have valid := inv.filled r member (by rw [phase]; rfl)
  refine ⟨content.cached, fun a nobody => ?_, fun j isValid clean => ?_, fun j changed =>
    content.kept j (Finset.mem_of_mem_erase changed)⟩
  · have different : a ≠ (s.buf r.buf).addr := by
      rintro rfl
      have invalid : (s.buf r.buf).valid = false := nobody r.buf rfl
      exact absurd valid (by simp [invalid])
    change Function.update s.layer.disk (s.buf r.buf).addr (s.buf r.buf).data a = s.written a
    rw [Function.update_of_ne different]
    exact content.uncached a nobody
  · change Function.update s.layer.disk (s.buf r.buf).addr (s.buf r.buf).data (s.buf j).addr =
      (s.buf j).data
    by_cases mine : j = r.buf
    · subst mine
      exact Function.update_self ..
    · have different : (s.buf j).addr ≠ (s.buf r.buf).addr := fun same =>
        mine (inv.unique same (.inl isValid) (.inl valid))
      rw [Function.update_of_ne different]
      exact content.clean j isValid fun changed => clean (Finset.mem_erase.mpr ⟨mine, changed⟩)

/-- Every action of callers that write back keeps the content. -/
theorem preserved {act : BioAct} {next : BioState} (content : ContentInv s) (inv : BioInv s)
    (disciplined : WritesBack s act) (step : BioStep s act next) : ContentInv next := by
  cases step with
  | bget unused got => exact content.bget inv got
  | @acquiresleep r layer member phase acquired =>
      unfold BlockLayer.acquiresleep at acquired
      split at acquired
      · cases acquired
      cases acquired
      exact content.of_same (update_fields s.layer ⟨rfl, rfl, rfl⟩) rfl rfl rfl
        (content.kept_of_moved (by simp [phase]) fun x place moved =>
          List.mem_cons_of_mem _ ((List.mem_erase_of_ne moved).mpr place))
  | fill member phase => exact content.fill inv member phase
  | modify member phase => exact content.modify inv member phase _
  | bwrite member phase wrote => exact content.bwrite inv member phase wrote
  | @releasesleep r _ member phase released =>
      unfold BlockLayer.releasesleep at released
      split at released
      swap
      · cases released
      cases released
      refine content.of_same (update_fields s.layer ⟨rfl, rfl, rfl⟩) rfl rfl rfl fun j changed => ?_
      by_cases mine : j = r.buf
      · exact .inr (mine ▸ disciplined (mine ▸ changed))
      · refine (content.kept j changed).imp_left ?_
        rintro ⟨x, place, same, held⟩
        have moved : x ≠ r := fun equal => mine (equal ▸ same).symm
        exact ⟨x, List.mem_cons_of_mem _ ((List.mem_erase_of_ne moved).mpr place), same, held⟩
  | @drop r member phase =>
      have fields : ∀ j, ((s.layer.drop r.buf).buf j).addr = (s.buf j).addr ∧
          ((s.layer.drop r.buf).buf j).valid = (s.buf j).valid ∧
          ((s.layer.drop r.buf).buf j).data = (s.buf j).data := fun j => by
        rw [BlockLayer.drop_buf]
        split
        · next equal => exact equal ▸ ⟨rfl, rfl, rfl⟩
        · exact ⟨rfl, rfl, rfl⟩
      exact content.of_same fields (BlockLayer.drop_disk _ _) rfl rfl
        (content.kept_of_moved (by simp [phase]) fun x place moved => (List.mem_erase_of_ne moved).mpr place)
  | bpin member phase =>
      exact content.of_same (update_fields s.layer ⟨rfl, rfl, rfl⟩) rfl rfl rfl
        fun j changed => (content.kept j changed).imp_right (List.mem_cons_of_mem _)
  | @bunpin i member =>
      refine content.of_same (update_fields s.layer ⟨rfl, rfl, rfl⟩) rfl rfl rfl fun j changed => ?_
      by_cases mine : j = i
      · subst mine
        exact (disciplined changed).symm
      · exact (content.kept j changed).imp_right (List.mem_erase_of_ne mine).mpr

/-- At boot nothing is cached. -/
theorem initial (valid : bioSystem.Initial s) : ContentInv s := by
  obtain ⟨cache, _, _, written, modified⟩ := valid
  have boot : ∀ i, (s.buf i).valid = false := fun i => by
    rw [BioState.buf, BlockLayer.buf, cache]
    rfl
  refine ⟨fun i isValid => ?_, fun a _ => by rw [written], fun i isValid => ?_, fun i changed => ?_⟩
  · simp [boot] at isValid
  · simp [boot] at isValid
  · simp [modified] at changed

end ContentInv

/-- Runs whose counters have room and whose callers write back what they change. -/
def Disciplined (s : BioState) (act : BioAct) : Prop := CounterRoom s act ∧ WritesBack s act

/-- Both invariants hold in every state of every disciplined run. -/
theorem contentInv_of_run {s : BioState} (run : bioSystem.ReachableUnder Disciplined s) :
    BioInv s ∧ ContentInv s := by
  have both : bioSystem.Inductive Disciplined fun s => BioInv s ∧ ContentInv s := {
    initial := fun valid => ⟨BioInv.initial valid, ContentInv.initial valid⟩
    preserved := fun inv permitted step =>
      ⟨inv.1.preserved permitted.1 step, inv.2.preserved inv.1 permitted.2 step⟩ }
  exact run.invariant both

/-- Only `bget` changes a label, and only of a buffer nobody references. -/
theorem relabel_unreferenced {s next : BioState} {act : BioAct} (inv : BioInv s)
    (step : BioStep s act next) {i : Fin NBUF} (relabelled : (next.buf i).addr ≠ (s.buf i).addr) :
    (s.buf i).refcnt = 0 ∧ ¬ s.Held i := by
  have kept : ∀ (m : BlockLayer) (k : Fin NBUF) (f : Buf → Buf), (∀ b, (f b).addr = b.addr) →
      ((m.update k f).buf i).addr = (m.buf i).addr := fun m k f same => by
    rw [BlockLayer.update_buf]
    split
    · next equal => rw [same, equal]
    · rfl
  cases step with
  | @bget _ _ _ _ k _ unused got =>
      obtain ⟨order, ordered⟩ := inv.order
      rcases BlockLayer.bget_cases ordered got with ⟨_, rfl⟩ | ⟨_, zero, rfl⟩
      · exact (relabelled (kept s.layer _ _ fun _ => rfl)).elim
      · have mine : i = k := by
          by_contra apart
          exact relabelled (by simp [BioState.buf, apart])
        have nobody := BioInv.unreferenced ((inv.refcnt_eq_zero _).mp zero)
        exact ⟨mine ▸ zero, mine ▸ fun held => held.elim
          (fun ⟨r, member, same⟩ => nobody.1 r member same) nobody.2⟩
  | acquiresleep _ _ acquired =>
      unfold BlockLayer.acquiresleep at acquired
      split at acquired
      · cases acquired
      cases acquired
      exact (relabelled (kept s.layer _ _ fun _ => rfl)).elim
  | fill =>
      refine absurd ?_ relabelled
      simp only [BioState.advance, BioState.buf, BlockLayer.fill_eq]
      exact kept s.layer _ _ fun b => by split <;> rfl
  | modify => exact (relabelled (kept s.layer _ _ fun _ => rfl)).elim
  | bwrite _ _ wrote =>
      unfold BlockLayer.bwrite at wrote
      split at wrote
      · cases wrote
        exact absurd rfl relabelled
      · cases wrote
  | releasesleep _ _ released =>
      unfold BlockLayer.releasesleep at released
      split at released
      · cases released
        exact (relabelled (kept s.layer _ _ fun _ => rfl)).elim
      · cases released
  | drop =>
      refine absurd ?_ relabelled
      simp only [BioState.buf, BlockLayer.drop_buf]
      split
      · next equal => rw [equal]; rfl
      · rfl
  | bpin => exact (relabelled (kept s.layer _ _ fun _ => rfl)).elim
  | bunpin => exact (relabelled (kept s.layer _ _ fun _ => rfl)).elim

/-- Coherence of the buffer cache. In every run of any number of callers: at most
one buffer that is valid, held or pinned represents a block; the LRU list is a
permutation of all `NBUF` buffers; a buffer is relabelled only when its `refcnt`
is 0 and nobody has it. If the callers also write back what they change, `bread`
returns the content last written to the block it was asked for, which is the
disk's content when the block was not in the cache. -/
theorem bufferCache_coherent {s : BioState} (run : bioSystem.ReachableUnder CounterRoom s) :
    (∀ i j, (s.buf i).addr = (s.buf j).addr → ((s.buf i).valid = true ∨ s.Held i) →
      ((s.buf j).valid = true ∨ s.Held j) → i = j) ∧
    (∃ order, order.Perm (List.finRange NBUF) ∧ s.layer.bcache.Order order) ∧
    (∀ act next, BioStep s act next → ∀ i, (next.buf i).addr ≠ (s.buf i).addr →
      (s.buf i).refcnt = 0 ∧ ¬ s.Held i) ∧
    (bioSystem.ReachableUnder Disciplined s → ∀ r next, BioStep s (.fill r) next →
      (next.buf r.buf).addr = r.addr ∧ (next.buf r.buf).data = s.written r.addr ∧
      ((s.buf r.buf).valid = false → (next.buf r.buf).data = s.layer.disk r.addr)) := by
  have inv := bioInv_of_run run
  have active : ∀ i, ((s.buf i).valid = true ∨ s.Held i) → (s.buf i).Active := fun i used =>
    used.elim .inl inv.active_of_held
  refine ⟨fun i j same usedI usedJ => inv.unique same (active i usedI) (active j usedJ), ?_,
    fun _ _ step _ relabelled => relabel_unreferenced inv step relabelled, ?_⟩
  · obtain ⟨order, ordered⟩ := inv.order
    exact ⟨order, ordered.perm, ordered.ring⟩
  · intro disciplined r next step
    cases step with
    | fill member phase =>
        have content := (contentInv_of_run disciplined).2.fill inv member phase
        have after := inv.fill member phase
        have place : r.at .holding ∈ (s.advance r .holding (s.layer.fill r.buf)).refs :=
          List.mem_cons_self
        have label := after.label (r.at .holding) place
        have data := content.cached r.buf (after.filled (r.at .holding) place rfl)
        refine ⟨label, data.trans (congrArg s.written label), fun invalid => ?_⟩
        have wanted := inv.label r member
        simp only [BioState.buf] at invalid wanted
        simp [BioState.advance, BioState.buf, BlockLayer.fill_eq, invalid, wanted]

section Computed

instance : NeZero NBUF := ⟨by decide⟩

instance : NeZero BSIZE := ⟨by decide⟩

instance (s : BioState) : (act : BioAct) → Decidable (WritesBack s act)
  | .releasesleep r => inferInstanceAs (Decidable (r.buf ∈ s.modified → r.buf ∈ s.pins))
  | .bunpin i => inferInstanceAs (Decidable (i ∈ s.modified →
      i ∈ s.pins.erase i ∨ ∃ r ∈ s.refs, r.buf = i ∧ r.phase = .holding))
  | .bget .. | .acquiresleep _ | .fill _ | .modify .. | .bwrite _ | .drop _ | .bpin _ =>
      inferInstanceAs (Decidable True)

instance (s : BioState) (act : BioAct) : Decidable (Disciplined s act) :=
  inferInstanceAs (Decidable (s.refs.length + s.pins.length + 1 < 2 ^ 32 ∧ WritesBack s act))

/-- A result under a condition. -/
def provided (condition : Prop) [Decidable condition] (result : Except Fault BioState) :
    Except Fault BioState :=
  if condition then result else .error .blocked

theorem provided_ok {condition : Prop} [Decidable condition] {result : Except Fault BioState} {s : BioState} :
    provided condition result = .ok s ↔ condition ∧ result = .ok s := by
  unfold provided
  split
  · next holds => exact (and_iff_right holds).symm
  · next fails => exact iff_of_false (fun ran => by cases ran) fun both => fails both.1

/-- One action, computed. -/
def BioState.perform (s : BioState) : BioAct → Except Fault BioState
  | .bget pid slot dev blockno =>
      provided (∀ r ∈ s.refs, ¬ (r.pid = pid ∧ r.slot = slot))
        ((s.layer.bget dev blockno).map fun got =>
          { s with layer := got.2, refs := ⟨pid, slot, dev, blockno, got.1, .waiting⟩ :: s.refs })
  | .acquiresleep r => provided (r ∈ s.refs ∧ r.phase = .waiting)
      ((s.layer.acquiresleep r.pid r.buf).map (s.advance r .filling))
  | .fill r => provided (r ∈ s.refs ∧ r.phase = .filling)
      (.ok (s.advance r .holding (s.layer.fill r.buf)))
  | .modify r data => provided (r ∈ s.refs ∧ r.phase = .holding)
      (.ok { s with
        layer := s.layer.setData r.buf data
        written := Function.update s.written r.addr data
        modified := insert r.buf s.modified })
  | .bwrite r => provided (r ∈ s.refs ∧ r.phase = .holding)
      ((s.layer.bwrite r.pid r.buf).map fun layer =>
        { s with layer := layer, modified := s.modified.erase r.buf })
  | .releasesleep r => provided (r ∈ s.refs ∧ r.phase = .holding)
      ((s.layer.releasesleep r.pid r.buf).map (s.advance r .leaving))
  | .drop r => provided (r ∈ s.refs ∧ r.phase = .leaving)
      (.ok { s with layer := s.layer.drop r.buf, refs := s.refs.erase r })
  | .bpin r => provided (r ∈ s.refs ∧ r.phase = .holding)
      (.ok { s with layer := s.layer.bpin r.buf, pins := r.buf :: s.pins })
  | .bunpin i => provided (i ∈ s.pins)
      (.ok { s with layer := s.layer.bunpin i, pins := s.pins.erase i })

/-- What is computed is a step of the system. -/
theorem BioState.perform_step {s next : BioState} {act : BioAct} (ran : s.perform act = .ok next) :
    BioStep s act next := by
  cases act <;> obtain ⟨condition, ran⟩ := provided_ok.mp ran
  case bget =>
    obtain ⟨⟨i, layer⟩, got, rfl⟩ := map_ok.mp ran
    exact .bget condition got
  case acquiresleep =>
    obtain ⟨layer, acquired, rfl⟩ := map_ok.mp ran
    exact .acquiresleep condition.1 condition.2 acquired
  case bwrite =>
    obtain ⟨layer, wrote, rfl⟩ := map_ok.mp ran
    exact .bwrite condition.1 condition.2 wrote
  case releasesleep =>
    obtain ⟨layer, released, rfl⟩ := map_ok.mp ran
    exact .releasesleep condition.1 condition.2 released
  all_goals cases ran
  case fill => exact .fill condition.1 condition.2
  case modify => exact .modify condition.1 condition.2
  case drop => exact .drop condition.1 condition.2
  case bpin => exact .bpin condition.1 condition.2
  case bunpin => exact .bunpin condition

/-- The actions of disciplined callers, one after the other. -/
def BioState.after (s : BioState) (acts : List BioAct) : Except Fault BioState :=
  acts.foldlM (fun s act => provided (Disciplined s act) (s.perform act)) s

theorem BioState.after_reachable {s t : BioState} {acts : List BioAct}
    (run : bioSystem.ReachableUnder Disciplined s) (ran : s.after acts = .ok t) :
    bioSystem.ReachableUnder Disciplined t := by
  refine foldlM_invariant (bioSystem.ReachableUnder Disciplined) (fun act u next reached performed => ?_) run ran
  obtain ⟨allowed, performed⟩ := provided_ok.mp performed
  exact reached.step allowed (BioState.perform_step performed)

end Computed

/-- Process 1 reads block 33, changes it, writes it and releases it. It then has the other buffers, and
reads block 200 into the one that is left, so that block 33 is no longer cached when process 2 asks for it. -/
def recycling : List BioAct :=
  let first := Ref.mk 1 0 0 33 0
  let other := Ref.mk 1 0 0 200 0
  [.bget 1 0 0 33, .acquiresleep (first .waiting), .fill (first .filling), .modify (first .holding) fun _ => 9,
    .bwrite (first .holding), .releasesleep (first .holding), .drop (first .leaving)] ++
  (List.range' 1 (NBUF - 1)).map (fun k => .bget 1 k 0 (100 + k)) ++
  [.bget 1 0 0 200, .acquiresleep (other .waiting), .fill (other .filling), .releasesleep (other .holding),
    .drop (other .leaving), .bget 2 0 0 33, .acquiresleep ⟨2, 0, 0, 33, 0, .waiting⟩]

/-- A block that was changed, written and recycled has its last content when it is read again. -/
theorem bufferCache_coherent_recycled : ∃ s r next, bioSystem.ReachableUnder Disciplined s ∧
    BioStep s (.fill r) next ∧ r.addr = ⟨0, 33⟩ ∧ (s.buf r.buf).valid = false ∧
    (s.layer.disk r.addr) 0 = 9 ∧ (next.buf r.buf).data 0 = 9 := by
  have computed : (((⟨⟨binit, fun _ _ => 7, []⟩, [], [], fun _ _ => 7, ∅⟩ : BioState).after recycling).map
      fun s => (decide (⟨2, 0, 0, 33, 0, .filling⟩ ∈ s.refs), (s.buf 0).valid, s.written ⟨0, 33⟩ 0)) =
      .ok (true, false, 9) := by decide +kernel
  obtain ⟨s, ran, seen⟩ := map_ok.mp computed
  simp only [Prod.mk.injEq, decide_eq_true_eq] at seen
  obtain ⟨member, invalid, content⟩ := seen
  have run : bioSystem.ReachableUnder Disciplined s :=
    BioState.after_reachable (.initial ⟨rfl, rfl, rfl, rfl, rfl⟩) ran
  have fills := BioStep.fill member rfl
  obtain ⟨-, data, disk⟩ := (bufferCache_coherent (run.mono fun permitted => permitted.1)).2.2.2 run _ _ fills
  refine ⟨s, _, _, run, fills, rfl, invalid, ?_, ?_⟩
  · rw [← disk invalid, data]
    exact content
  · rw [data]
    exact content

end Riscv2os.Xv7
