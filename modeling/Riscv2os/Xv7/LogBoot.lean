import Riscv2os.Std.Loops
import Riscv2os.Xv7.LogAccounting

/-!
# Reference counts after a boot

`install_trans` calls `bunpin` for every block of the header, also when recovery
calls it and nobody has pinned the blocks. The sum of all `refcnt` shows the
difference: over a disk whose log holds a transaction it ends below zero.
-/

namespace Riscv2os.Xv7

open Riscv2os.Std

/-- A scan finds a buffer that satisfies the condition. -/
private theorem Bcache.scan_sat {c : Bcache} {step : Node → Node} {p : Buf → Bool} {i : Fin NBUF}
    (found : c.scan step p = some i) : p (c.buf i) = true := by
  have node := Links.findFrom_sat (Option.join_eq_some_iff.mp found)
  simpa using node

namespace BlockLayer

/-- The sum of the reference counts of all buffers, as the 32-bit number that
increments and decrements leave. -/
def total (m : BlockLayer) : BitVec 32 := ∑ i, (m.buf i).refcnt

theorem total_update (m : BlockLayer) (i : Fin NBUF) (f : Buf → Buf) :
    (m.update i f).total = m.total + ((f (m.buf i)).refcnt - (m.buf i).refcnt) := by
  exact sum_update m.bcache.buf Buf.refcnt i (f (m.buf i))

/-- A change of a buffer that keeps its count. -/
theorem total_update_eq (m : BlockLayer) (i : Fin NBUF) {f : Buf → Buf}
    (same : ∀ b, (f b).refcnt = b.refcnt) : (m.update i f).total = m.total := by
  rw [total_update, same, sub_self, add_zero]

theorem total_setData (m : BlockLayer) (i : Fin NBUF) (data : Block) :
    (m.setData i data).total = m.total := m.total_update_eq i fun _ => rfl

theorem total_drop (m : BlockLayer) (i : Fin NBUF) : (m.drop i).total = m.total - 1 := by
  have same : (m.drop i).total =
      (m.update i fun b => { b with refcnt := b.refcnt - 1 }).total := by
    apply Finset.sum_congr rfl
    intro j _
    rw [drop_buf, update_buf]
  rw [same, total_update]
  ring

theorem total_acquiresleep {m m' : BlockLayer} {pid : Nat} {i : Fin NBUF}
    (acquired : m.acquiresleep pid i = .ok m') : m'.total = m.total := by
  unfold acquiresleep at acquired
  split at acquired
  · cases acquired
  · cases acquired
    exact total_update_eq m i fun _ => rfl

theorem total_releasesleep {m m' : BlockLayer} {pid : Nat} {i : Fin NBUF}
    (released : m.releasesleep pid i = .ok m') : m'.total = m.total := by
  unfold releasesleep at released
  split at released
  · cases released
    exact total_update_eq m i fun _ => rfl
  · cases released

theorem total_bwrite {m m' : BlockLayer} {pid : Nat} {i : Fin NBUF}
    (wrote : m.bwrite pid i = .ok m') : m'.total = m.total := by
  unfold bwrite at wrote
  split at wrote
  · cases wrote
    rfl
  · cases wrote

/-- `bget` references one more buffer: a recycled one had no references. -/
theorem total_bget {m m' : BlockLayer} {dev blockno : Nat} {i : Fin NBUF}
    (got : m.bget dev blockno = .ok (i, m')) : m'.total = m.total + 1 := by
  unfold bget at got
  split at got
  · cases got
    rw [total_update]
    ring
  · split at got
    · next found =>
      cases got
      have free : (m.buf i).refcnt = 0 := by
        have sat := Bcache.scan_sat found
        rw [beq_iff_eq] at sat
        exact sat
      rw [total_update, free]
      ring
    · cases got

theorem total_fill (m : BlockLayer) (i : Fin NBUF) : (m.fill i).total = m.total := by
  rw [fill_eq]
  apply total_update_eq
  intro b
  split <;> rfl

end BlockLayer

/-- What a critical section adds to the sum of the reference counts. -/
def Instr.delta : Instr → BitVec 32
  | .bget _ _ => 1
  | .bunpin _ | .drop _ => -1
  | _ => 0

namespace LogState

variable {pid : Nat} {s s' : LogState}

/-- One critical section changes the sum by its `delta`. -/
theorem step_total {instr : Instr} (ran : s.step pid instr = .ok s') :
    s'.layer.total = s.layer.total + instr.delta := by
  cases instr with
  | bget r blockno =>
      simp only [step] at ran
      cases got : s.layer.bget s.log.dev blockno with
      | error fault =>
          rw [got] at ran
          cases ran
      | ok result =>
          rw [got] at ran
          cases ran
          exact BlockLayer.total_bget got
  | acquiresleep r =>
      simp only [step] at ran
      cases acquired : s.layer.acquiresleep pid (s.regs r) with
      | error fault =>
          rw [acquired] at ran
          cases ran
      | ok layer =>
          rw [acquired] at ran
          cases ran
          exact (BlockLayer.total_acquiresleep acquired).trans (add_zero _).symm
  | fill r =>
      cases ran
      exact (BlockLayer.total_fill _ _).trans (add_zero _).symm
  | memmove dst src =>
      cases ran
      exact (BlockLayer.total_setData _ _ _).trans (add_zero _).symm
  | getHead r =>
      simp only [step] at ran
      cases loaded : s.log.lh.load (s.layer.buf (s.regs r)).data with
      | error fault =>
          rw [loaded] at ran
          cases ran
      | ok lh =>
          rw [loaded] at ran
          cases ran
          exact (add_zero _).symm
  | putHead r =>
      cases ran
      exact (BlockLayer.total_setData _ _ _).trans (add_zero _).symm
  | bwrite r =>
      simp only [step] at ran
      cases wrote : s.layer.bwrite pid (s.regs r) with
      | error fault =>
          rw [wrote] at ran
          cases ran
      | ok layer =>
          rw [wrote] at ran
          cases ran
          exact (BlockLayer.total_bwrite wrote).trans (add_zero _).symm
  | bunpin r =>
      cases ran
      refine (BlockLayer.total_update _ _ _).trans ?_
      simp only [Instr.delta]
      ring
  | releasesleep r =>
      simp only [step] at ran
      cases released : s.layer.releasesleep pid (s.regs r) with
      | error fault =>
          rw [released] at ran
          cases ran
      | ok layer =>
          rw [released] at ran
          cases ran
          exact (BlockLayer.total_releasesleep released).trans (add_zero _).symm
  | drop r =>
      cases ran
      refine (BlockLayer.total_drop _ _).trans ?_
      simp only [Instr.delta]
      ring
  | clear =>
      cases ran
      exact (add_zero _).symm

/-- Straight-line code changes the sum by the sum of its `delta`s. -/
theorem exec_total {code : List Instr} (ran : exec pid code s = .ok s') :
    s'.layer.total = s.layer.total + (code.map Instr.delta).sum := by
  induction code generalizing s with
  | nil =>
      cases ran
      simp
  | cons instr code ih =>
      rw [exec] at ran
      cases first : s.step pid instr with
      | error fault =>
          rw [first] at ran
          cases ran
      | ok middle =>
          rw [first] at ran
          rw [ih ran, step_total first, List.map_cons, List.sum_cons]
          ring

end LogState

namespace Log

variable (log : Log)

/-- `read_head` and `write_head` drop what they reference. -/
theorem sum_readHead : (log.readHead.map Instr.delta).sum = 0 := by
  simp [readHead, bread, brelse, Instr.delta]

theorem sum_writeHead : (log.writeHead.map Instr.delta).sum = 0 := by
  simp [writeHead, bread, brelse, Instr.delta]

/-- `install_trans` unpins each block of the header once. -/
theorem sum_installTrans :
    (log.installTrans.map Instr.delta).sum = -(log.lh.n.toNat : BitVec 32) := by
  have round : ∀ tail, ((log.installTransBody tail).map Instr.delta).sum = -1 := by
    intro tail
    simp [installTransBody, bread, brelse, Instr.delta]
  have loop : ∀ tails : List Nat, ((tails.flatMap log.installTransBody).map Instr.delta).sum =
      -(tails.length : BitVec 32) := by
    intro tails
    induction tails with
    | nil => simp
    | cons tail tails ih =>
        rw [List.flatMap_cons, List.map_append, List.sum_append, round, ih, List.length_cons]
        rw [Nat.cast_succ, neg_add, add_comm]
  rw [installTrans, loop, List.length_range]

end Log

namespace LogState

variable {pid : Nat} {dev logstart nlog : Nat} {disk : Disk}

/-- The boot gets past `read_head` only if the number of blocks fits the array, and
then has it in memory. -/
private theorem readHead_n {s' : LogState}
    (ran : exec pid (booted dev logstart nlog disk).log.readHead (booted dev logstart nlog disk) =
      .ok s') :
    s'.log.lh.n = Logheader.headN (disk ⟨dev, logstart⟩) ∧
      Logheader.headN (disk ⟨dev, logstart⟩) ≤ LOGSIZE := by
  have holding := booted_holding pid dev logstart nlog disk
  obtain ⟨s₁, does₁, log₁, holding₁⟩ := holding.bread .buf logstart (by simp) (by simp)
    (.inl (by simp [NBUF, MAXOPBLOCKS]))
  have data : (s₁.layer.buf (s₁.regs .buf)).data = disk ⟨dev, logstart⟩ := by
    rw [holding₁.solo.data (by simp), holding₁.label _ List.mem_cons_self]
    rfl
  by_cases large : Logheader.headN (disk ⟨dev, logstart⟩) > LOGSIZE
  · -- the copy runs over the end of the array
    have fault : s₁.step pid (.getHead .buf) = .error .outOfBounds := by
      simp only [step, Logheader.load, data, if_pos large]
      rfl
    rw [Log.readHead, exec_append] at ran
    change exec pid (Log.bread .buf logstart) _ >>= _ = _ at ran
    rw [does₁.1] at ran
    simp only [bind, Except.bind, exec, fault] at ran
    cases ran
  · have load : (booted dev logstart nlog disk).log.lh.load (disk ⟨dev, logstart⟩) = .ok _ :=
      if_neg large
    obtain ⟨s₂, does₂, log₂, _⟩ := holding.readHead List.not_mem_nil
      (by simp [NBUF, MAXOPBLOCKS]) load
    rw [does₂.1] at ran
    cases ran
    rw [log₂]
    exact ⟨rfl, not_lt.mp large⟩

/-- A boot subtracts the number of committed blocks from the reference counts. -/
theorem initlog_total {st : LogState} (ran : initlog pid dev logstart nlog disk = .ok st) :
    Logheader.headN (disk ⟨dev, logstart⟩) ≤ LOGSIZE ∧
      st.layer.total = -((Logheader.headN (disk ⟨dev, logstart⟩)).toNat : BitVec 32) := by
  rw [initlog_eq, recoverFromLog] at ran
  cases first : exec pid (booted dev logstart nlog disk).log.readHead
      (booted dev logstart nlog disk) with
  | error fault =>
      rw [first] at ran
      cases ran
  | ok s₁ =>
      rw [first] at ran
      simp only [bind, Except.bind] at ran
      cases second : exec pid s₁.log.installTrans s₁ with
      | error fault =>
          rw [second] at ran
          cases ran
      | ok s₂ =>
          rw [second] at ran
          obtain ⟨number, small⟩ := readHead_n first
          have boot : (booted dev logstart nlog disk).layer.total = 0 := by
            apply Finset.sum_eq_zero
            intro i _
            rfl
          have zero : ((Instr.clear :: s₂.log.writeHead).map Instr.delta).sum = 0 := by
            rw [List.map_cons, List.sum_cons, Log.sum_writeHead]
            rfl
          refine ⟨small, ?_⟩
          rw [exec_total ran, zero, exec_total second, Log.sum_installTrans, number,
            exec_total first, Log.sum_readHead, boot]
          ring

/-- After a boot over an empty log no buffer is referenced. -/
theorem initlog_unreferenced (pid : Nat) (empty : Logheader.headN (disk ⟨dev, logstart⟩) ≤ 0) :
    ∃ st, initlog pid dev logstart nlog disk = .ok st ∧ ∀ i, (st.layer.buf i).refcnt = 0 := by
  have count : (redoLog dev logstart nlog).count (disk ⟨dev, logstart⟩) = 0 := by
    rw [redoLog_count]
    omega
  obtain ⟨_, _, _, st, ran, _, _, _, holding⟩ := initlog_ok pid (by rw [count]; decide)
    (RedoLog.WellFormed.of_empty count)
  rw [count] at holding
  refine ⟨st, ran, fun i => ?_⟩
  simpa using holding.solo.refcnt i

end LogState

/-- The reference counts of a machine that boots over `disk`: they are 0 when
`initlog` has returned, and exact in every state that is reached. -/
structure RefcntsExact (pid dev logstart nlog : Nat) (disk : Disk) : Prop where
  booted : ∃ st, LogState.initlog pid dev logstart nlog disk = .ok st ∧
    ∀ i, (st.layer.buf i).refcnt = 0
  running : ∀ s, (logSystem pid dev logstart nlog disk).ReachableUnder LogRoom s → s.Accounted

/-- A boot leaves the counts at 0 only if it had nothing to recover. -/
private theorem RefcntsExact.empty {pid dev logstart nlog : Nat} {disk : Disk}
    (exact_ : RefcntsExact pid dev logstart nlog disk) :
    Logheader.headN (disk ⟨dev, logstart⟩) ≤ 0 := by
  obtain ⟨st, ran, unreferenced⟩ := exact_.booted
  obtain ⟨small, total⟩ := LogState.initlog_total ran
  have zero : st.layer.total = 0 := Finset.sum_eq_zero fun i _ => unreferenced i
  rw [zero] at total
  have whole := congrArg BitVec.toNat (neg_eq_zero.mp total.symm)
  rw [BitVec.natCast_eq_ofNat, BitVec.toNat_ofNat] at whole
  have : LOGSIZE = 30 := rfl
  rw [Nat.mod_eq_of_lt (by omega)] at whole
  change _ = 0 at whole
  omega

/-- The reference counts are exact precisely when the boot finds an empty log.
Recovery of a committed transaction unpins buffers that nobody pinned. -/
theorem refcnts_exact_iff_log_empty (pid dev logstart nlog : Nat) (disk : Disk) :
    RefcntsExact pid dev logstart nlog disk ↔ Logheader.headN (disk ⟨dev, logstart⟩) ≤ 0 := by
  constructor
  · exact RefcntsExact.empty
  · intro empty
    exact ⟨LogState.initlog_unreferenced pid empty,
      fun s run => (logInv_of_run empty run).accounted⟩

/-- A disk whose log holds one committed block, number 100. -/
def committedDisk : Disk := fun a =>
  if a = ⟨1, 2⟩ then (Bytes.setWord (fun _ => 0) 0 1).setWord 1 100 else fun _ => 0

/-- A boot over a log with one committed block. -/
theorem refcnts_wrong_after_recovery : ¬ RefcntsExact 1 1 2 30 committedDisk := by
  intro exact_
  exact absurd exact_.empty (by decide)

end Riscv2os.Xv7
