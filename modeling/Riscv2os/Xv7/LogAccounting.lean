import Riscv2os.Xv7.BioContent
import Riscv2os.Xv7.LogSequential
import Riscv2os.Xv7.LogThread

/-!
# The references of the log

While the log of the boot disk is empty, every buffer is referenced once for
each outstanding `bread` and once more if the transaction pins its block. The
invariant follows a log thread through its typed code. A boot over a disk with a
committed transaction breaks the count, because `install_trans` unpins buffers
that nobody pinned.
-/

namespace Riscv2os.Xv7

open Riscv2os.Std

/-- Inside a log thread: what its code does with its local variables, and that the
blocks still to be unpinned are those the transaction pins. -/
structure LogSys.Runs (s : LogSys) (t : Thread) (hold : Hold) (unpins : List Nat) : Prop where
  typed : Typed hold t.code unpins
  refs : Matches s.bio.refs t s.log.dev hold
  pinned : s.pinned = unpins.map (⟨s.log.dev, ·⟩)

/-- What every run over a disk with an empty log keeps true. -/
structure LogInv (disk : Disk) (s : LogSys) : Prop where
  bio : BioInv s.bio
  keys : (s.bio.refs.map Ref.key).Nodup
  pins : (s.bio.pins.map fun i => (s.bio.buf i).addr).Perm s.pinned
  nodup : s.pinned.Nodup
  outstanding : s.log.outstanding = s.inOp.length
  committing : s.log.committing = true ↔ ∃ t, s.thread = some t ∧ t.stage = .committing
  alone : s.thread ≠ none → s.inOp = []
  foreign : ∀ x ∈ s.bio.refs, x.slot < Reg.slots → ∃ t, s.thread = some t ∧ x.pid = t.pid
  runs : ∀ t, s.thread = some t → ∃ hold unpins, s.Runs t hold unpins
  nonneg : s.Up → 0 ≤ s.log.lh.n
  empty : ¬ s.Up → s.log.lh.n ≤ 0
  clear : ∀ t, s.thread = some t → t.stage ≠ .reading →
    (∀ r, .getHead r ∉ t.code) ∧ (.clear ∈ t.code ∨ s.log.lh.n = 0)
  reading : ∀ t, s.thread = some t → t.stage = .reading → s.bio.layer.disk = disk ∧
    (∀ i, (s.bio.buf i).valid = true → (s.bio.buf i).data = disk (s.bio.buf i).addr) ∧
    (∀ x ∈ s.bio.refs, x.addr = s.log.headAddr) ∧
    ∀ instr ∈ t.code, instr ∈ s.log.readHead
  header : Logheader.headN (disk s.log.headAddr) ≤ 0

namespace BioStep

variable {b b' : BioState} {act : BioAct}

/-- A pinned buffer keeps its label. -/
theorem pinned_addr (step : BioStep b act b') (inv : BioInv b) {i : Fin NBUF} (pin : i ∈ b.pins) :
    (b'.buf i).addr = (b.buf i).addr := by
  by_contra relabelled
  exact (relabel_unreferenced inv step relabelled).2 (.inr pin)

private theorem keys_advance {b : BioState} {r : Ref} (member : r ∈ b.refs)
    (keys : (b.refs.map Ref.key).Nodup) (phase : Phase) (layer : BlockLayer) :
    ((b.advance r phase layer).refs.map Ref.key).Nodup := by
  have whole := (List.perm_cons_erase member).map Ref.key
  exact whole.nodup_iff.mp keys

/-- No two `bread`s share a local variable. -/
theorem keys (step : BioStep b act b') (keys : (b.refs.map Ref.key).Nodup) :
    (b'.refs.map Ref.key).Nodup := by
  cases step with
  | bget unused got =>
      refine List.nodup_cons.mpr ⟨fun member => ?_, keys⟩
      obtain ⟨x, place, same⟩ := List.mem_map.mp member
      simp only [Ref.key, Prod.mk.injEq] at same
      exact unused x place same
  | acquiresleep member _ _ => exact keys_advance member keys _ _
  | fill member _ => exact keys_advance member keys _ _
  | releasesleep member _ _ => exact keys_advance member keys _ _
  | drop member _ =>
      have whole := (List.perm_cons_erase member).map Ref.key
      exact (List.nodup_cons.mp (whole.nodup_iff.mp keys)).2
  | modify => exact keys
  | bwrite => exact keys
  | bpin => exact keys
  | bunpin => exact keys

/-- Processes leave the local variables of `log.c` and the pins alone. -/
theorem ordinary (step : BioStep b act b') (ordinary : act.Ordinary) :
    b'.pins = b.pins ∧ ∀ x : Ref, x.slot < Reg.slots → (x ∈ b'.refs ↔ x ∈ b.refs) := by
  have moved : ∀ {r : Ref} (phase : Phase), Reg.slots ≤ r.slot → ∀ x : Ref, x.slot < Reg.slots →
      (x ∈ r.at phase :: b.refs.erase r ↔ x ∈ b.refs) := by
    intro r phase large x small
    have apart : x ≠ r := fun same => by rw [same] at small; omega
    have apart' : x ≠ r.at phase := fun same => by
      rw [same] at small
      exact absurd large (not_le.mpr small)
    rw [List.mem_cons, List.mem_erase_of_ne apart]
    exact ⟨fun member => member.resolve_left apart', .inr⟩
  cases step with
  | bget unused got =>
      refine ⟨rfl, fun x small => ?_⟩
      rw [List.mem_cons]
      refine ⟨fun member => member.resolve_left fun same => ?_, .inr⟩
      rw [same] at small
      exact absurd ordinary (not_le.mpr small)
  | acquiresleep => exact ⟨rfl, moved _ ordinary⟩
  | fill => exact ⟨rfl, moved _ ordinary⟩
  | releasesleep => exact ⟨rfl, moved _ ordinary⟩
  | drop =>
      refine ⟨rfl, fun x small => List.mem_erase_of_ne fun same => ?_⟩
      rw [same] at small
      exact absurd ordinary (not_le.mpr small)
  | modify => exact ⟨rfl, fun _ _ => Iff.rfl⟩
  | bwrite => exact ordinary.elim
  | bpin => exact ordinary.elim
  | bunpin => exact ordinary.elim

end BioStep

/-- Nothing has been stored since the boot: valid buffers and disks are those of
`disk`. -/
def BioState.Unwritten (disk : Disk) (b : BioState) : Prop :=
  b.layer.disk = disk ∧ ∀ i, (b.buf i).valid = true → (b.buf i).data = disk (b.buf i).addr

/-- Actions that store nothing. -/
def BioAct.Quiet : BioAct → Prop
  | .modify _ _ | .bwrite _ => False
  | _ => True

theorem BioStep.unwritten {b b' : BioState} {act : BioAct} {disk : Disk} (step : BioStep b act b')
    (quiet : act.Quiet) (inv : BioInv b) (fresh : b.Unwritten disk) : b'.Unwritten disk := by
  obtain ⟨same, data⟩ := fresh
  have update : ∀ (i : Fin NBUF) (f : Buf → Buf),
      ((f (b.buf i)).valid = true → (f (b.buf i)).data = disk (f (b.buf i)).addr) →
      ∀ j, ((b.layer.update i f).buf j).valid = true →
        ((b.layer.update i f).buf j).data = disk ((b.layer.update i f).buf j).addr := by
    intro i f new j
    rw [BlockLayer.update_buf]
    split
    · exact new
    · exact data j
  cases step with
  | bget unused got =>
      obtain ⟨order, ordered⟩ := inv.order
      rcases BlockLayer.bget_cases ordered got with ⟨_, rfl⟩ | ⟨_, _, rfl⟩
      · exact ⟨same, update _ _ (data _)⟩
      · exact ⟨same, update _ _ fun impossible => by cases impossible⟩
  | acquiresleep _ _ acquired =>
      unfold BlockLayer.acquiresleep at acquired
      split at acquired
      · cases acquired
      cases acquired
      exact ⟨same, update _ _ (data _)⟩
  | fill =>
      rw [BlockLayer.fill_eq]
      refine ⟨same, update _ _ fun _ => ?_⟩
      split
      · next valid => exact data _ valid
      · exact congrFun same _
  | modify => exact quiet.elim
  | bwrite => exact quiet.elim
  | releasesleep _ _ released =>
      unfold BlockLayer.releasesleep at released
      split at released
      · cases released
        exact ⟨same, update _ _ (data _)⟩
      · cases released
  | drop =>
      refine ⟨(BlockLayer.drop_disk _ _).trans same, fun j => ?_⟩
      simp only [BioState.buf, BlockLayer.drop_buf]
      split
      · exact data _
      · exact data j
  | bpin => exact ⟨same, update _ _ (data _)⟩
  | bunpin => exact ⟨same, update _ _ (data _)⟩

namespace LogInv

variable {disk : Disk} {s : LogSys}

/-- The invariant gives the count of every buffer. -/
theorem accounted (inv : LogInv disk s) : s.Accounted := by
  intro i
  have pinsNodup : s.bio.pins.Nodup := (inv.pins.nodup_iff.mpr inv.nodup).of_map _
  have isPin : i ∈ s.bio.pins ↔ (s.bio.buf i).valid = true ∧ (s.bio.buf i).addr ∈ s.pinned := by
    rw [← inv.pins.mem_iff]
    constructor
    · intro member
      exact ⟨inv.bio.pinned i member, List.mem_map_of_mem member⟩
    · rintro ⟨valid, member⟩
      obtain ⟨j, pin, same⟩ := List.mem_map.mp member
      rwa [inv.bio.unique same.symm (.inl valid) (.inl (inv.bio.pinned j pin))]
  rw [inv.bio.toNat_refcnt, BioState.outstanding]
  by_cases pin : i ∈ s.bio.pins
  · rw [if_pos (isPin.mp pin), List.count_eq_one_of_mem pinsNodup pin]
  · rw [if_neg (mt isPin.mpr pin), List.count_eq_zero.mpr pin]

/-- While an operation is open no thread runs. -/
theorem thread_none (inv : LogInv disk s) {pid : Nat} (inOp : pid ∈ s.inOp) : s.thread = none := by
  by_contra some
  rw [inv.alone some] at inOp
  cases inOp

theorem up_of_none (none : s.thread = none) : s.Up := fun t some => by
  rw [none] at some
  cases some

theorem pinned_of_none (none : s.thread = none) :
    s.pinned = s.log.lh.blocks.map fun blockno => ⟨s.log.dev, blockno⟩ := by
  simp [LogSys.pinned, none]

/-- The invariant of a state without a thread. -/
theorem of_none (none : s.thread = none) (bio : BioInv s.bio)
    (keys : (s.bio.refs.map Ref.key).Nodup)
    (pins : (s.bio.pins.map fun i => (s.bio.buf i).addr).Perm
      (s.log.lh.blocks.map fun blockno => ⟨s.log.dev, blockno⟩))
    (nodup : s.log.lh.blocks.Nodup) (outstanding : s.log.outstanding = s.inOp.length)
    (free : s.log.committing = false) (slots : ∀ x ∈ s.bio.refs, Reg.slots ≤ x.slot)
    (nonneg : 0 ≤ s.log.lh.n) (header : Logheader.headN (disk s.log.headAddr) ≤ 0) :
    LogInv disk s := by
  have noThread : ∀ {P : Thread → Prop}, ∀ t, s.thread = some t → P t := fun t thread => by
    rw [none] at thread
    cases thread
  refine ⟨bio, keys, (pinned_of_none none).symm ▸ pins, ?_, outstanding, ?_, fun some =>
    absurd none some, fun x member slot => absurd (slots x member) (not_le.mpr slot), noThread,
    fun _ => nonneg, fun down => absurd (up_of_none none) down, noThread, noThread, header⟩
  · rw [pinned_of_none none]
    exact nodup.map fun _ _ same => (BlockAddr.mk.inj same).2
  · simp [free, none]

/-- Without a thread the invariant is about the processes alone. -/
theorem none_cases (inv : LogInv disk s) (none : s.thread = none) :
    (s.bio.pins.map fun i => (s.bio.buf i).addr).Perm
        (s.log.lh.blocks.map fun blockno => ⟨s.log.dev, blockno⟩) ∧
      s.log.lh.blocks.Nodup ∧ s.log.committing = false ∧
      (∀ x ∈ s.bio.refs, Reg.slots ≤ x.slot) ∧ 0 ≤ s.log.lh.n := by
  refine ⟨pinned_of_none none ▸ inv.pins, ?_, ?_, fun x member => ?_,
    inv.nonneg (up_of_none none)⟩
  · have := inv.nodup
    rw [pinned_of_none none] at this
    exact this.of_map _
  · by_contra busy
    obtain ⟨t, thread, _⟩ := inv.committing.mp (by simpa using busy)
    rw [none] at thread
    cases thread
  · by_contra small
    obtain ⟨t, thread, _⟩ := inv.foreign x member (not_le.mp small)
    rw [none] at thread
    cases thread

/-- Processes use the cache between the critical sections of the log. -/
theorem process (inv : LogInv disk s) (up : s.Up) {act : BioAct} {bio : BioState}
    (ordinary : act.Ordinary) (room : s.bio.refs.length + s.bio.pins.length + 1 < 2 ^ 32)
    (step : BioStep s.bio act bio) : LogInv disk { s with bio := bio } := by
  obtain ⟨pins, small⟩ := step.ordinary ordinary
  exact {
    bio := inv.bio.preserved room step
    keys := step.keys inv.keys
    pins := by
      have same : (bio.pins.map fun i => (bio.buf i).addr) =
          s.bio.pins.map fun i => (s.bio.buf i).addr := by
        rw [pins]
        exact List.map_congr_left fun i pin => step.pinned_addr inv.bio pin
      exact same ▸ inv.pins
    nodup := inv.nodup
    outstanding := inv.outstanding
    committing := inv.committing
    alone := inv.alone
    foreign := fun x member slot => inv.foreign x ((small x slot).mp member) slot
    runs := fun t thread => by
      obtain ⟨hold, unpins, runs⟩ := inv.runs t thread
      exact ⟨hold, unpins, runs.typed, runs.refs.congr small, runs.pinned⟩
    nonneg := inv.nonneg
    empty := inv.empty
    clear := inv.clear
    reading := fun t thread stage => by
      rw [up t thread] at stage
      cases stage
    header := inv.header }

/-- `begin_op` of one more operation. -/
theorem beginOp (inv : LogInv disk s) (up : s.Up) {log : Log} {pid : Nat}
    (begun : s.log.beginOp = .ok log) :
    LogInv disk { s with log := log, inOp := pid :: s.inOp } := by
  unfold Log.beginOp at begun
  split at begun
  swap
  · cases begun
  next admits =>
  cases begun
  have free : s.log.committing = false := by
    simp only [Log.admits, Bool.and_eq_true, Bool.not_eq_true'] at admits
    exact admits.1
  have none : s.thread = none := by
    cases thread : s.thread with
    | none => rfl
    | some t =>
        have := inv.committing.mpr ⟨t, thread, up t thread⟩
        rw [free] at this
        cases this
  obtain ⟨pins, nodup, _, slots, nonneg⟩ := inv.none_cases none
  exact of_none none inv.bio inv.keys pins nodup (by simp [inv.outstanding]) free slots nonneg
    inv.header

/-- `log_write` pins a block exactly when it adds the block to the header. -/
theorem logWrite (inv : LogInv disk s) {r : Ref} {log : Log} {new : Bool}
    (room : s.bio.refs.length + s.bio.pins.length + 1 < 2 ^ 32) (member : r ∈ s.bio.refs)
    (phase : r.phase = .holding) (inOp : r.pid ∈ s.inOp) (dev : r.dev = s.log.dev)
    (recorded : s.log.recordWrite (s.bio.buf r.buf).blockno = .ok (log, new)) :
    LogInv disk { s with
      bio := if new then
          { s.bio with layer := s.bio.layer.bpin r.buf, pins := r.buf :: s.bio.pins }
        else s.bio
      log := log } := by
  have none := inv.thread_none inOp
  obtain ⟨pins, nodup, free, slots, nonneg⟩ := inv.none_cases none
  rcases Log.recordWrite_cases nonneg (s.bio.buf r.buf).blockno with
    ⟨fault, _⟩ | ⟨lh, ok, nonneg', blocks⟩
  · rw [fault] at recorded
    cases recorded
  rw [ok] at recorded
  simp only [Except.ok.injEq, Prod.mk.injEq] at recorded
  obtain ⟨rfl, rfl⟩ := recorded
  by_cases logged : (s.bio.buf r.buf).blockno ∈ s.log.lh.blocks
  · rw [if_pos logged] at blocks
    rw [if_neg (by simpa using logged)]
    exact of_none none inv.bio inv.keys (by rw [blocks]; exact pins) (by rw [blocks]; exact nodup)
      inv.outstanding free slots nonneg' inv.header
  · rw [if_neg logged] at blocks
    rw [if_pos (by simpa using logged)]
    have step := BioStep.bpin member phase
    have kept : (s.bio.pins.map fun i => ((s.bio.layer.bpin r.buf).buf i).addr) =
        s.bio.pins.map fun i => (s.bio.buf i).addr :=
      List.map_congr_left fun i pin => step.pinned_addr inv.bio pin
    have own : ((s.bio.layer.bpin r.buf).buf r.buf).addr =
        ⟨s.log.dev, (s.bio.buf r.buf).blockno⟩ := by
      have devs : (s.bio.buf r.buf).dev = s.log.dev :=
        (congrArg BlockAddr.dev (inv.bio.label r member)).trans dev
      rw [← devs]
      exact BlockLayer.update_addr _ _ _ rfl
    refine of_none none (inv.bio.preserved room step) inv.keys ?_ ?_ inv.outstanding free slots
      nonneg' inv.header
    · change (((s.bio.layer.bpin r.buf).buf r.buf).addr ::
        s.bio.pins.map fun i => ((s.bio.layer.bpin r.buf).buf i).addr).Perm _
      rw [kept, own, blocks, List.map_append]
      exact (pins.cons _).trans (List.perm_append_singleton _ _).symm
    · rw [blocks]
      refine List.nodup_append.mpr ⟨nodup, by simp, fun a place b last => ?_⟩
      rw [List.mem_singleton.mp last]
      rintro rfl
      exact logged place

/-- `end_op`. The last one starts a commit, with nothing in hand. -/
theorem endOp (inv : LogInv disk s) {pid : Nat} {log : Log} {doCommit : Bool}
    (inOp : pid ∈ s.inOp) (ended : s.log.endOp = .ok (log, doCommit)) :
    LogInv disk { s with
      log := log
      inOp := s.inOp.erase pid
      thread := if doCommit then some ⟨pid, .committing, log.commit, fun _ => ⟨0, NBUF_pos⟩⟩
        else s.thread } := by
  have none := inv.thread_none inOp
  obtain ⟨pins, nodup, free, slots, nonneg⟩ := inv.none_cases none
  have outstanding := inv.outstanding
  have fewer := List.length_erase_of_mem inOp
  have some := List.length_pos_of_mem inOp
  unfold Log.endOp at ended
  simp only at ended
  split at ended
  · cases ended
  split at ended
  swap
  · cases ended
    refine of_none none inv.bio inv.keys pins nodup ?_ free slots nonneg inv.header
    change s.log.outstanding - 1 = (s.inOp.erase pid).length
    omega
  next last =>
  cases ended
  have noOp : s.inOp.erase pid = [] := List.length_eq_zero_iff.mp (by omega)
  rw [if_pos rfl]
  let log : Log := { s.log with outstanding := s.log.outstanding - 1, committing := true }
  let t : Thread := ⟨pid, .committing, log.commit, fun _ => ⟨0, NBUF_pos⟩⟩
  have typed : Typed (fun _ => Option.none) log.commit s.log.lh.blocks := Typed.commit log nonneg
  have pinned : LogSys.pinned ⟨s.bio, log, s.inOp.erase pid, Option.some t⟩ =
      s.log.lh.blocks.map fun blockno => ⟨s.log.dev, blockno⟩ := by
    have count := typed.length_unpins
    simp only [LogSys.pinned, t, ← count, List.length_map]
    simp [log]
  exact {
    bio := inv.bio
    keys := inv.keys
    pins := pinned ▸ pins
    nodup := by
      rw [pinned]
      exact nodup.map fun _ _ same => (BlockAddr.mk.inj same).2
    outstanding := by
      change s.log.outstanding - 1 = ((s.inOp.erase pid).length : Int)
      omega
    committing := by simp
    alone := fun _ => noOp
    foreign := fun x member small => absurd (slots x member) (not_le.mpr small)
    runs := fun t' same => by
      obtain rfl := Option.some.inj same
      exact ⟨_, _, typed, .of_slots t log.dev slots, pinned⟩
    nonneg := fun _ => nonneg
    empty := fun down => absurd (fun t' same => by
      obtain rfl := Option.some.inj same
      rfl) down
    clear := fun t' same _ => by
      obtain rfl := Option.some.inj same
      exact ⟨log.getHead_not_mem_commit, log.clear_mem_commit nonneg⟩
    reading := fun t' same stage => by
      obtain rfl := Option.some.inj same
      cases stage
    header := inv.header }

/-- Code that is done has nothing in hand and nothing left to unpin. -/
private theorem done (inv : LogInv disk s) {t : Thread} (thread : s.thread = some t)
    (code : t.code = []) : s.pinned = [] ∧ ∀ x ∈ s.bio.refs, Reg.slots ≤ x.slot := by
  obtain ⟨hold, unpins, typed, refs, pinned⟩ := inv.runs t thread
  rw [code] at typed
  cases typed
  refine ⟨pinned, fun x member => ?_⟩
  by_contra small
  obtain ⟨t', thread', pid⟩ := inv.foreign x member (not_le.mp small)
  rw [thread] at thread'
  obtain rfl := Option.some.inj thread'
  obtain ⟨r, slot⟩ := Reg.exists_of_lt (not_le.mp small)
  obtain ⟨_, _, held, _⟩ := (refs r x).mp ⟨member, pid, slot⟩
  cases held

/-- The end of a thread leaves a header without entries. -/
private theorem finish (inv : LogInv disk s) {t : Thread} (thread : s.thread = some t)
    (code : t.code = []) (stage : t.stage ≠ .reading) :
    LogInv disk { s with log := { s.log with committing := false }, thread := none } := by
  obtain ⟨pinned, slots⟩ := inv.done thread code
  have zero : s.log.lh.n = 0 := by
    have := (inv.clear t thread stage).2
    simpa [code] using this
  have none : s.log.lh.blocks = [] := by
    rw [← List.length_eq_zero_iff, Logheader.length_blocks, zero]
    rfl
  have pins := inv.pins
  rw [pinned] at pins
  refine of_none rfl inv.bio inv.keys ?_ (by rw [none]; exact List.nodup_nil) inv.outstanding rfl slots
    (le_of_eq zero.symm) inv.header
  rw [none]
  exact pins

/-- `committing` is set only while a commit runs. -/
private theorem not_committing (inv : LogInv disk s) {t : Thread} (thread : s.thread = some t)
    (stage : t.stage ≠ .committing) : s.log.committing = false := by
  by_contra busy
  obtain ⟨t', thread', stage'⟩ := inv.committing.mp (by simpa using busy)
  rw [thread] at thread'
  obtain rfl := Option.some.inj thread'
  exact stage stage'

/-- After `read_head` the boot goes on with a header that lists nothing. -/
theorem recover (inv : LogInv disk s) {t : Thread} (thread : s.thread = some t)
    (stage : t.stage = .reading) (code : t.code = []) :
    LogInv disk { s with thread := some { t with
      stage := .recovering
      code := s.log.installTrans ++ .clear :: s.log.writeHead } } := by
  have down : ¬ s.Up := fun up => by
    have := up t thread
    rw [stage] at this
    cases this
  have empty := inv.empty down
  have none : s.log.lh.blocks = [] := by
    rw [← List.length_eq_zero_iff, Logheader.length_blocks]
    omega
  obtain ⟨pinned, slots⟩ := inv.done thread code
  have pins := inv.pins
  rw [pinned] at pins
  exact {
    bio := inv.bio
    keys := inv.keys
    pins := pins
    nodup := List.nodup_nil
    outstanding := inv.outstanding
    committing := by simp [inv.not_committing thread (by rw [stage]; simp)]
    alone := fun _ => inv.alone (by rw [thread]; exact Option.some_ne_none t)
    foreign := fun x member small => absurd (slots x member) (not_le.mpr small)
    runs := fun t' same => by
      obtain rfl := Option.some.inj same
      have typed := Typed.installTrans s.log
      rw [none] at typed
      exact ⟨_, _, typed, .of_slots _ _ slots, rfl⟩
    nonneg := fun up => by cases up _ rfl
    empty := fun _ => empty
    clear := fun t' same _ => by
      obtain rfl := Option.some.inj same
      exact ⟨s.log.getHead_not_mem_install, .inl (by simp)⟩
    reading := fun t' same stage' => by
      obtain rfl := Option.some.inj same
      cases stage'
    header := inv.header }

/-- A thread goes on without touching the log or the pins. -/
private theorem continue_ (inv : LogInv disk s) {t t' : Thread} {act : BioAct} {bio : BioState}
    {hold hold' : Hold} {unpins : List Nat} (thread : s.thread = some t)
    (runs : s.Runs t hold unpins)
    (room : s.bio.refs.length + s.bio.pins.length + 1 < 2 ^ 32)
    (same : t'.pid = t.pid ∧ t'.stage = t.stage) {instr : Instr} (next : t.code = instr :: t'.code)
    (noUnpin : instr.isBunpin = false) (noClear : instr ≠ .clear)
    (step : BioStep s.bio act bio) (pins : bio.pins = s.bio.pins)
    (typed : Typed hold' t'.code unpins) (refs : Matches bio.refs t' s.log.dev hold')
    (own : ∀ x ∈ bio.refs, x ∈ s.bio.refs ∨ x.pid = t.pid)
    (reading : t.stage = .reading → act.Quiet ∧ ∀ x ∈ bio.refs, x.addr = s.log.headAddr) :
    LogInv disk { s with bio := bio, thread := some t' } := by
  have count : t'.code.countP Instr.isBunpin = t.code.countP Instr.isBunpin := by
    simp [next, noUnpin]
  have pinned : LogSys.pinned { s with bio := bio, thread := some t' } = s.pinned := by
    simp only [LogSys.pinned, thread, same.2, count]
  have up : LogSys.Up { s with bio := bio, thread := some t' } ↔ s.Up := by
    simp only [LogSys.Up, thread, Option.some.injEq, forall_eq', same.2]
  have tail : ∀ instr ∈ t'.code, instr ∈ t.code := fun instr member => by
    rw [next]
    exact List.mem_cons_of_mem _ member
  exact {
    bio := inv.bio.preserved room step
    keys := step.keys inv.keys
    pins := by
      rw [pinned]
      have labels : (bio.pins.map fun i => (bio.buf i).addr) =
          s.bio.pins.map fun i => (s.bio.buf i).addr := by
        rw [pins]
        exact List.map_congr_left fun i pin => step.pinned_addr inv.bio pin
      exact labels ▸ inv.pins
    nodup := pinned ▸ inv.nodup
    outstanding := inv.outstanding
    committing := by
      rw [inv.committing, thread]
      simp [same.2]
    alone := fun _ => inv.alone (by rw [thread]; exact Option.some_ne_none t)
    foreign := fun x member small => by
      refine ⟨t', rfl, ?_⟩
      rcases own x member with old | mine
      · obtain ⟨t₀, thread₀, pid⟩ := inv.foreign x old small
        rw [thread] at thread₀
        obtain rfl := Option.some.inj thread₀
        rw [pid, same.1]
      · rw [mine, same.1]
    runs := fun t₀ now => by
      obtain rfl := Option.some.inj now
      exact ⟨hold', unpins, typed, refs, pinned.trans runs.pinned⟩
    nonneg := fun isUp => inv.nonneg (up.mp isUp)
    empty := fun down => inv.empty (mt up.mpr down)
    clear := fun t₀ now stage => by
      obtain rfl := Option.some.inj now
      obtain ⟨noGet, clear⟩ := inv.clear t thread (same.2 ▸ stage)
      refine ⟨fun r member => noGet r (tail _ member), clear.imp_left fun member => ?_⟩
      rw [next] at member
      exact (List.mem_cons.mp member).resolve_left noClear.symm
    reading := fun t₀ now stage => by
      obtain rfl := Option.some.inj now
      rw [same.2] at stage
      obtain ⟨diskSame, data, _, code⟩ := inv.reading t thread stage
      obtain ⟨quiet, addrs⟩ := reading stage
      obtain ⟨diskSame', data'⟩ := step.unwritten quiet inv.bio ⟨diskSame, data⟩
      exact ⟨diskSame', data', addrs, fun instr member => code instr (tail _ member)⟩
    header := inv.header }

/-- A local variable of a thread moves on to another phase. -/
private theorem move (inv : LogInv disk s) {t : Thread} {code : List Instr} {act : BioAct}
    {hold : Hold} {unpins : List Nat} {layer : BlockLayer} {instr : Instr} {r : Reg}
    {blockno : Nat} {phase phase' : Phase} (thread : s.thread = some t)
    (runs : s.Runs t hold unpins) (room : s.bio.refs.length + s.bio.pins.length + 1 < 2 ^ 32)
    (next : t.code = instr :: code) (noUnpin : instr.isBunpin = false) (noClear : instr ≠ .clear)
    (held : hold r = some (blockno, phase))
    (typed : Typed (Function.update hold r (some (blockno, phase'))) code unpins)
    (step : BioStep s.bio act (s.bio.advance (t.ref s.log.dev r blockno phase) phase' layer))
    (quiet : act.Quiet) :
    LogInv disk { s with
      bio := s.bio.move t.pid r.slot phase' layer, thread := some { t with code := code } } := by
  have moved : s.bio.move t.pid r.slot phase' layer =
      s.bio.advance (t.ref s.log.dev r blockno phase) phase' layer := by
    simp only [BioState.move, BioState.refAt, runs.refs.find held]
  rw [moved]
  refine inv.continue_ thread runs room ⟨rfl, rfl⟩ next noUnpin noClear step rfl typed
    (runs.refs.move inv.keys held phase') (fun x member => ?_) fun stage => ⟨quiet, fun x member => ?_⟩
  · rcases List.mem_cons.mp member with rfl | old
    · exact .inr rfl
    · exact .inl (List.mem_of_mem_erase old)
  · have addrs := (inv.reading t thread stage).2.2.1
    rcases List.mem_cons.mp member with rfl | old
    · exact addrs (t.ref s.log.dev r blockno phase) (runs.refs.mem held)
    · exact addrs x (List.mem_of_mem_erase old)

/-- A store of a thread into a buffer it holds. -/
private theorem store (inv : LogInv disk s) {t : Thread} {code : List Instr}
    {hold : Hold} {unpins : List Nat} {instr : Instr} {r : Reg} {blockno : Nat} (data : Block)
    (thread : s.thread = some t) (runs : s.Runs t hold unpins)
    (room : s.bio.refs.length + s.bio.pins.length + 1 < 2 ^ 32) (next : t.code = instr :: code)
    (noUnpin : instr.isBunpin = false) (noClear : instr ≠ .clear)
    (notBoot : instr ∉ s.log.readHead) (held : hold r = some (blockno, .holding))
    (typed : Typed hold code unpins) :
    LogInv disk { s with
      bio := s.bio.store (t.regs r) (s.bio.layer.setData (t.regs r) data)
      thread := some { t with code := code } } := by
  have member := runs.refs.mem held
  have step : BioStep s.bio (.modify _ data) _ := .modify member rfl
  have label : ((s.bio.layer.setData (t.regs r) data).buf (t.regs r)).addr =
      (t.ref s.log.dev r blockno .holding).addr :=
    (BlockLayer.update_addr _ _ _ rfl).trans (inv.bio.label _ member)
  have own : ((s.bio.layer.setData (t.regs r) data).buf (t.regs r)).data = data := by
    simp [BlockLayer.setData]
  have stored : s.bio.store (t.regs r) (s.bio.layer.setData (t.regs r) data) =
      { s.bio with
        layer := s.bio.layer.setData (t.regs r) data
        written := Function.update s.bio.written (t.ref s.log.dev r blockno .holding).addr data
        modified := insert (t.regs r) s.bio.modified } := by
    rw [BioState.store, label, own]
  rw [stored]
  refine inv.continue_ thread runs room ⟨rfl, rfl⟩ next noUnpin noClear step rfl typed runs.refs
    (fun x place => .inl place) fun stage => absurd ?_ notBoot
  exact (inv.reading t thread stage).2.2.2 instr (by rw [next]; exact List.mem_cons_self)

/-- The boot loads a header that lists nothing. -/
private theorem getHead (inv : LogInv disk s) {t : Thread} {code : List Instr} {hold : Hold}
    {r : Reg} {blockno : Nat} {lh : Logheader} (thread : s.thread = some t)
    (runs : s.Runs t hold []) (next : t.code = .getHead r :: code)
    (held : hold r = some (blockno, .holding)) (typed : Typed hold code [])
    (loaded : s.log.lh.load (s.bio.layer.buf (t.regs r)).data = .ok lh) :
    LogInv disk { s with
      log := { s.log with lh := lh }, thread := some { t with code := code } } := by
  have stage : t.stage = .reading := by
    by_contra other
    exact (inv.clear t thread other).1 r (by rw [next]; exact List.mem_cons_self)
  obtain ⟨diskSame, data, addrs, boot⟩ := inv.reading t thread stage
  have member := runs.refs.mem held
  have empty : lh.n ≤ 0 := by
    have valid := inv.bio.filled _ member rfl
    have content := data _ valid
    rw [inv.bio.label _ member, addrs _ member] at content
    have number : lh.n = Logheader.headN (s.bio.layer.buf (t.regs r)).data := by
      unfold Logheader.load at loaded
      split at loaded
      · cases loaded
      · cases loaded
        rfl
    rw [number]
    exact (congrArg Logheader.headN content).trans_le inv.header
  have pinned : s.pinned = [] := runs.pinned
  have none : LogSys.pinned { s with
      log := { s.log with lh := lh }, thread := some { t with code := code } } = [] := by
    simp only [LogSys.pinned, stage]
  exact {
    bio := inv.bio
    keys := inv.keys
    pins := by rw [none, ← pinned]; exact inv.pins
    nodup := by rw [none]; exact List.nodup_nil
    outstanding := inv.outstanding
    committing := by
      rw [inv.committing, thread]
      simp
    alone := fun _ => inv.alone (by rw [thread]; exact Option.some_ne_none t)
    foreign := fun x place small => by
      obtain ⟨t', thread', pid⟩ := inv.foreign x place small
      rw [thread] at thread'
      obtain rfl := Option.some.inj thread'
      exact ⟨_, rfl, pid⟩
    runs := fun t' now => by
      obtain rfl := Option.some.inj now
      exact ⟨hold, [], typed, runs.refs, none⟩
    nonneg := fun up => by
      have other : t.stage = .committing := up { t with code := code } rfl
      rw [stage] at other
      cases other
    empty := fun _ => empty
    clear := fun t' now other => by
      obtain rfl := Option.some.inj now
      exact absurd stage other
    reading := fun t' now _ => by
      obtain rfl := Option.some.inj now
      refine ⟨diskSame, data, addrs, fun instr place => boot instr ?_⟩
      rw [next]
      exact List.mem_cons_of_mem _ place
    header := inv.header }

/-- A commit unpins the next block of the header. -/
private theorem bunpin (inv : LogInv disk s) {t : Thread} {code : List Instr} {hold : Hold}
    {unpins : List Nat} {r : Reg} {blockno : Nat} (thread : s.thread = some t)
    (runs : s.Runs t hold (blockno :: unpins))
    (room : s.bio.refs.length + s.bio.pins.length + 1 < 2 ^ 32)
    (next : t.code = .bunpin r :: code) (held : hold r = some (blockno, .holding))
    (typed : Typed hold code unpins) :
    LogInv disk { s with
      bio := { s.bio with
        layer := s.bio.layer.bunpin (t.regs r), pins := s.bio.pins.erase (t.regs r) }
      thread := some { t with code := code } } := by
  have member := runs.refs.mem held
  have label : (s.bio.buf (t.regs r)).addr = ⟨s.log.dev, blockno⟩ := inv.bio.label _ member
  have valid : (s.bio.buf (t.regs r)).valid = true := inv.bio.filled _ member rfl
  have pinned := runs.pinned
  rw [List.map_cons] at pinned
  -- the buffer in hand is the one that was pinned
  have pin : t.regs r ∈ s.bio.pins := by
    have listed : (⟨s.log.dev, blockno⟩ : BlockAddr) ∈ s.pinned := by
      rw [pinned]
      exact List.mem_cons_self
    obtain ⟨i, pin, same⟩ := List.mem_map.mp (inv.pins.mem_iff.mpr listed)
    rwa [inv.bio.unique (label.trans same.symm) (.inl valid) (.inl (inv.bio.pinned i pin))]
  have step : BioStep s.bio (.bunpin (t.regs r)) _ := .bunpin pin
  have stage : t.stage = .committing := by
    cases stage : t.stage with
    | committing => rfl
    | reading => simp [LogSys.pinned, thread, stage] at pinned
    | recovering => simp [LogSys.pinned, thread, stage] at pinned
  have rest : LogSys.pinned { s with
      bio := { s.bio with
        layer := s.bio.layer.bunpin (t.regs r), pins := s.bio.pins.erase (t.regs r) }
      thread := some { t with code := code } } = unpins.map (⟨s.log.dev, ·⟩) := by
    have count := typed.length_unpins
    have countCons : t.code.countP Instr.isBunpin = unpins.length + 1 := by
      rw [next, List.countP_cons_of_pos rfl, count]
    simp only [LogSys.pinned, thread, stage, countCons, ← count] at pinned ⊢
    have large := congrArg List.length pinned
    simp only [List.length_drop, List.length_cons, List.length_map] at large
    have one := congrArg (List.drop 1) pinned
    rw [List.drop_drop, List.drop_one, List.tail_cons] at one
    rw [← one]
    congr 1
    simp only [List.length_map]
    omega
  have pins := inv.pins
  rw [pinned] at pins
  have nodup := inv.nodup
  rw [pinned, List.nodup_cons] at nodup
  have kept : ((s.bio.pins.erase (t.regs r)).map fun i =>
      ((s.bio.layer.bunpin (t.regs r)).buf i).addr) =
      (s.bio.pins.erase (t.regs r)).map fun i => (s.bio.buf i).addr :=
    List.map_congr_left fun i _ => BlockLayer.update_addr _ _ _ rfl
  exact {
    bio := inv.bio.preserved room step
    keys := inv.keys
    pins := by
      rw [rest]
      change ((s.bio.pins.erase (t.regs r)).map fun i =>
        ((s.bio.layer.bunpin (t.regs r)).buf i).addr).Perm _
      rw [kept]
      have whole := (List.perm_cons_erase pin).map fun i => (s.bio.buf i).addr
      rw [List.map_cons, label] at whole
      exact (whole.symm.trans pins).cons_inv
    nodup := rest ▸ nodup.2
    outstanding := inv.outstanding
    committing := by
      rw [inv.committing, thread]
      simp
    alone := fun _ => inv.alone (by rw [thread]; exact Option.some_ne_none t)
    foreign := fun x place small => by
      obtain ⟨t', thread', pid⟩ := inv.foreign x place small
      rw [thread] at thread'
      obtain rfl := Option.some.inj thread'
      exact ⟨_, rfl, pid⟩
    runs := fun t' now => by
      obtain rfl := Option.some.inj now
      exact ⟨hold, unpins, typed, runs.refs, rest⟩
    nonneg := fun _ => inv.nonneg fun t' now => by
      rw [thread] at now
      obtain rfl := Option.some.inj now
      exact stage
    empty := fun down => absurd (fun t' now => by
      obtain rfl := Option.some.inj now
      exact stage) down
    clear := fun t' now other => by
      obtain rfl := Option.some.inj now
      obtain ⟨noGet, clear⟩ := inv.clear t thread other
      rw [next] at noGet clear
      exact ⟨fun r place => noGet r (List.mem_cons_of_mem _ place),
        clear.imp_left fun place => (List.mem_cons.mp place).resolve_left (by simp)⟩
    reading := fun t' now reading => by
      obtain rfl := Option.some.inj now
      have : t.stage = .reading := reading
      rw [stage] at this
      cases this
    header := inv.header }

/-- `log[dev].lh.n = 0`. -/
private theorem clearHead (inv : LogInv disk s) {t : Thread} {code : List Instr} {hold : Hold}
    (thread : s.thread = some t) (runs : s.Runs t hold []) (next : t.code = .clear :: code)
    (typed : Typed hold code []) :
    LogInv disk { s with
      log := { s.log with lh := { s.log.lh with n := 0 } }
      thread := some { t with code := code } } := by
  have pinned : s.pinned = [] := runs.pinned
  have none : LogSys.pinned { s with
      log := { s.log with lh := { s.log.lh with n := 0 } }
      thread := some { t with code := code } } = [] := by
    simp only [LogSys.pinned, Logheader.blocks]
    cases t.stage <;> simp
  exact {
    bio := inv.bio
    keys := inv.keys
    pins := by rw [none, ← pinned]; exact inv.pins
    nodup := by rw [none]; exact List.nodup_nil
    outstanding := inv.outstanding
    committing := by
      rw [inv.committing, thread]
      simp
    alone := fun _ => inv.alone (by rw [thread]; exact Option.some_ne_none t)
    foreign := fun x place small => by
      obtain ⟨t', thread', pid⟩ := inv.foreign x place small
      rw [thread] at thread'
      obtain rfl := Option.some.inj thread'
      exact ⟨_, rfl, pid⟩
    runs := fun t' now => by
      obtain rfl := Option.some.inj now
      exact ⟨hold, [], typed, runs.refs, none⟩
    nonneg := fun _ => le_refl 0
    empty := fun _ => le_refl 0
    clear := fun t' now other => by
      obtain rfl := Option.some.inj now
      obtain ⟨noGet, _⟩ := inv.clear t thread other
      rw [next] at noGet
      exact ⟨fun r place => noGet r (List.mem_cons_of_mem _ place), .inr rfl⟩
    reading := fun t' now reading => by
      obtain rfl := Option.some.inj now
      have boot := (inv.reading t thread reading).2.2.2 _ (by rw [next]; exact List.mem_cons_self)
      simpa using s.log.mem_readHead boot
    header := inv.header }

/-- A critical section of a thread. -/
theorem instr (inv : LogInv disk s) {t : Thread} {instr : Instr} {code : List Instr}
    {after : LogState} (room : s.bio.refs.length + s.bio.pins.length + 1 < 2 ^ 32)
    (thread : s.thread = some t) (next : t.code = instr :: code)
    (ran : (s.view t).step t.pid instr = .ok after) :
    LogInv disk (s.advance t instr code after) := by
  obtain ⟨hold, unpins, runs⟩ := inv.runs t thread
  have typed := runs.typed
  rw [next] at typed
  cases typed with
  | @bget _ r blockno _ _ free rest =>
      simp only [LogState.step, LogSys.view] at ran
      cases got : s.bio.layer.bget s.log.dev blockno with
      | error fault =>
          rw [got] at ran
          cases ran
      | ok result =>
          obtain ⟨i, layer⟩ := result
          rw [got] at ran
          cases ran
          have unused : ∀ x ∈ s.bio.refs, ¬ (x.pid = t.pid ∧ x.slot = r.slot) := by
            rintro x member ⟨pid, slot⟩
            obtain ⟨_, _, held, _⟩ := (runs.refs r x).mp ⟨member, pid, slot⟩
            rw [free] at held
            cases held
          have step := BioStep.bget unused got
          have refs := runs.refs.bget free blockno i code
          have same : (⟨t.pid, r.slot, s.log.dev, blockno, i, .waiting⟩ : Ref) =
              ⟨t.pid, r.slot, s.log.dev, blockno, Function.update t.regs r i r, .waiting⟩ := by simp
          rw [same] at step refs
          refine inv.continue_ thread runs room ⟨rfl, rfl⟩ next rfl (by simp) step rfl rest refs
            (fun x member => ?_) fun stage => ⟨trivial, fun x member => ?_⟩
          · rcases List.mem_cons.mp member with rfl | old
            · exact .inr rfl
            · exact .inl old
          · obtain ⟨_, _, addrs, boot⟩ := inv.reading t thread stage
            rcases List.mem_cons.mp member with rfl | old
            · have := s.log.mem_readHead (boot _ (by rw [next]; exact List.mem_cons_self))
              simp at this
              rw [this.2]
              rfl
            · exact addrs x old
  | @acquiresleep _ r blockno _ _ held rest =>
      simp only [LogState.step, LogSys.view] at ran
      cases acquired : s.bio.layer.acquiresleep t.pid (t.regs r) with
      | error fault =>
          rw [acquired] at ran
          cases ran
      | ok layer =>
          rw [acquired] at ran
          cases ran
          exact inv.move thread runs room next rfl (by simp) held rest
            (.acquiresleep (runs.refs.mem held) rfl acquired) trivial
  | @fill _ r blockno _ _ held rest =>
      cases ran
      exact inv.move thread runs room next rfl (by simp) held rest
        (.fill (runs.refs.mem held) rfl) trivial
  | @memmove _ dst src blockno _ _ held rest =>
      cases ran
      exact inv.store _ thread runs room next rfl (by simp)
        (fun boot => by simpa using s.log.mem_readHead boot) held rest
  | @getHead _ r blockno _ held rest =>
      simp only [LogState.step, LogSys.view] at ran
      cases loaded : s.log.lh.load (s.bio.layer.buf (t.regs r)).data with
      | error fault =>
          rw [loaded] at ran
          cases ran
      | ok lh =>
          rw [loaded] at ran
          cases ran
          exact inv.getHead thread runs next held rest loaded
  | @putHead _ r blockno _ _ held rest =>
      cases ran
      exact inv.store _ thread runs room next rfl (by simp)
        (fun boot => by simpa using s.log.mem_readHead boot) held rest
  | @bwrite _ r blockno _ _ held rest =>
      simp only [LogState.step, LogSys.view] at ran
      cases wrote : s.bio.layer.bwrite t.pid (t.regs r) with
      | error fault =>
          rw [wrote] at ran
          cases ran
      | ok layer =>
          rw [wrote] at ran
          cases ran
          have step : BioStep s.bio (.bwrite (t.ref s.log.dev r blockno .holding)) _ :=
            .bwrite (runs.refs.mem held) rfl wrote
          refine inv.continue_ thread runs room ⟨rfl, rfl⟩ next rfl (by simp) step rfl rest runs.refs
            (fun x place => .inl place) fun stage => ?_
          have boot := (inv.reading t thread stage).2.2.2 _ (by rw [next]; exact List.mem_cons_self)
          simpa using s.log.mem_readHead boot
  | @bunpin _ r blockno _ _ held rest =>
      cases ran
      exact inv.bunpin thread runs room next held rest
  | @releasesleep _ r blockno _ _ held rest =>
      simp only [LogState.step, LogSys.view] at ran
      cases released : s.bio.layer.releasesleep t.pid (t.regs r) with
      | error fault =>
          rw [released] at ran
          cases ran
      | ok layer =>
          rw [released] at ran
          cases ran
          exact inv.move thread runs room next rfl (by simp) held rest
            (.releasesleep (runs.refs.mem held) rfl released) trivial
  | @drop _ r blockno _ _ held rest =>
      cases ran
      have step : BioStep s.bio (.drop (t.ref s.log.dev r blockno .leaving)) _ :=
        .drop (runs.refs.mem held) rfl
      have dropped : s.bio.track t.pid
          ((s.view t).withLayer ((s.view t).layer.drop ((s.view t).regs r))) (.drop r) = { s.bio with
            layer := s.bio.layer.drop (t.regs r)
            refs := s.bio.refs.erase (t.ref s.log.dev r blockno .leaving) } := by
        simp only [BioState.track, BioState.refAt, runs.refs.find held]
        rfl
      simp only [LogSys.advance]
      rw [dropped]
      refine inv.continue_ thread runs room ⟨rfl, rfl⟩ next rfl (by simp) step rfl rest
        (runs.refs.drop inv.keys held) (fun x place => .inl (List.mem_of_mem_erase place))
        fun stage => ⟨trivial, fun x place => ?_⟩
      exact (inv.reading t thread stage).2.2.1 x (List.mem_of_mem_erase place)
  | clear rest =>
      cases ran
      exact inv.clearHead thread runs next rest

/-- A machine that boots over an empty log. -/
theorem initial {pid dev logstart nlog : Nat}
    (empty : Logheader.headN (disk ⟨dev, logstart⟩) ≤ 0)
    (start : (logSystem pid dev logstart nlog disk).Initial s) : LogInv disk s := by
  obtain rfl : s = _ := start
  exact {
    bio := .initial ⟨rfl, rfl, rfl, rfl, rfl⟩
    keys := List.nodup_nil
    pins := .nil
    nodup := List.nodup_nil
    outstanding := rfl
    committing := by simp
    alone := fun _ => rfl
    foreign := fun x member => absurd member List.not_mem_nil
    runs := fun t same => by
      obtain rfl := Option.some.inj same
      exact ⟨_, [], .readHead _, .of_slots _ _ fun x member => absurd member List.not_mem_nil, rfl⟩
    nonneg := fun _ => le_refl 0
    empty := fun _ => le_refl 0
    clear := fun t same other => by
      obtain rfl := Option.some.inj same
      exact absurd rfl other
    reading := fun t same _ => by
      obtain rfl := Option.some.inj same
      refine ⟨rfl, fun i valid => ?_, fun x member => absurd member List.not_mem_nil,
        fun instr member => member⟩
      cases valid
    header := empty }

/-- Every action preserves the invariant. -/
theorem preserved {act : LogAct} {next : LogSys} (inv : LogInv disk s) (room : LogRoom s act)
    (step : LogStep s act next) : LogInv disk next := by
  cases step with
  | process up ordinary step => exact inv.process up ordinary room step
  | beginOp up begun => exact inv.beginOp up begun
  | logWrite up member phase inOp dev recorded =>
      exact inv.logWrite room member phase inOp dev recorded
  | endOp inOp ended => exact inv.endOp inOp ended
  | instr thread next ran => exact inv.instr room thread next ran
  | recover thread stage done => exact inv.recover thread stage done
  | booted thread stage done =>
      have free := inv.not_committing thread (by rw [stage]; simp)
      have finished := inv.finish thread done (by rw [stage]; simp)
      rwa [show { s.log with committing := false } = s.log by rw [← free]] at finished
  | committed thread stage done => exact inv.finish thread done (by rw [stage]; simp)

end LogInv

/-- While the log of the boot disk is empty the invariant holds in every run. -/
theorem logInv_of_run {disk : Disk} {pid dev logstart nlog : Nat} {s : LogSys}
    (empty : Logheader.headN (disk ⟨dev, logstart⟩) ≤ 0)
    (run : (logSystem pid dev logstart nlog disk).ReachableUnder LogRoom s) : LogInv disk s :=
  run.invariant ⟨.initial empty, .preserved⟩

end Riscv2os.Xv7
