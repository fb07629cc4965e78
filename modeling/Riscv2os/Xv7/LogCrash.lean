import Riscv2os.Xv7.LogSequential

/-!
# Crash atomicity of the log

Transactions run one after another over a disk whose log is empty. Every prefix
of the block writes of such a run leaves a disk whose view, in the sense of
`Riscv2os.Std.RedoLog`, is the state after the transactions whose header reached
the disk, and recovery brings the home blocks to that view.
-/

namespace Riscv2os.Xv7

open Riscv2os.Std

/-- A change of one block between `bread` and `brelse`, recorded by `log_write`. -/
structure Update where
  blockno : Nat
  change : Block → Block

/-- The updates between `begin_op` and `end_op`. -/
abbrev Transaction := List Update

/-- What an update means for the disks. -/
def Update.apply (dev : Nat) (disk : Disk) (update : Update) : Disk :=
  Function.update disk ⟨dev, update.blockno⟩ (update.change (disk ⟨dev, update.blockno⟩))

namespace Transaction

/-- What a transaction means for the disks. -/
def apply (dev : Nat) (disk : Disk) (tx : Transaction) : Disk := tx.foldl (Update.apply dev) disk

/-- No `log_write` of the transaction finds the log of `size` blocks full. -/
def Fits (size : Nat) (tx : Transaction) : Prop :=
  ∀ k < tx.length, ((tx.take k).map Update.blockno).toFinset.card + 1 < size

/-- The blocks of a transaction that fits leave a block of the log for the header. -/
theorem Fits.card_lt {size : Nat} {tx : Transaction} (fits : tx.Fits size) (some : tx ≠ []) :
    (tx.map Update.blockno).toFinset.card < size := by
  obtain ⟨before, last, rfl⟩ := (List.eq_nil_or_concat tx).resolve_left some
  have room := fits before.length (by simp)
  rw [List.concat_eq_append, List.take_left] at room
  have more := Finset.card_insert_le last.blockno (before.map Update.blockno).toFinset
  have same : ((before.concat last).map Update.blockno).toFinset =
      insert last.blockno (before.map Update.blockno).toFinset := by
    ext blockno
    simp
  rw [same]
  omega

/-- The transaction is about home blocks, whose numbers are 32-bit numbers. -/
def Home (dev start size : Nat) (tx : Transaction) : Prop :=
  ∀ update ∈ tx, update.blockno < 2 ^ 32 ∧ (redoLog dev start size).IsHome ⟨dev, update.blockno⟩

/-- A transaction reads and changes home blocks only. -/
theorem apply_congr {dev start size : Nat} {tx : Transaction} (home : tx.Home dev start size)
    {left right : Disk} (same : ∀ a, (redoLog dev start size).IsHome a → left a = right a) :
    ∀ a, (redoLog dev start size).IsHome a → tx.apply dev left a = tx.apply dev right a := by
  induction tx generalizing left right with
  | nil => exact same
  | cons update tx ih =>
      refine ih (fun later member => home later (List.mem_cons_of_mem _ member)) fun a isHome => ?_
      have here := (home update List.mem_cons_self).2
      simp only [Update.apply, same _ here, Function.update_apply]
      split
      · rfl
      · exact same a isHome

end Transaction

namespace LogState

/-- `begin_op`, the updates, `end_op`. -/
def transaction (pid : Nat) (s : LogState) (tx : Transaction) : Except Fault LogState := do
  let log ← s.log.beginOp
  let s ← tx.foldlM (fun s update => s.update pid update.blockno update.change) { s with log := log }
  s.endOp pid

/-- A process is between `begin_op` and `end_op`. The blocks of the header are
pinned and `content` is what the cache has. -/
structure Running (pid : Nat) (content : Disk) (s : LogState) : Prop where
  holding : Holding pid content 1 (s.log.lh.blocks.map (⟨s.log.dev, ·⟩)) [] s
  nonneg : 0 ≤ s.log.lh.n
  nodup : s.log.lh.blocks.Nodup
  outstanding : s.log.outstanding = 1
  committing : s.log.committing = false

variable {pid : Nat} {content : Disk} {s : LogState}

private theorem map_addr_nodup (dev : Nat) {blocks : List Nat} (nodup : blocks.Nodup) :
    (blocks.map fun blockno => (⟨dev, blockno⟩ : BlockAddr)).Nodup :=
  nodup.map fun _ _ same => (BlockAddr.mk.inj same).2

private theorem mem_map_addr {dev blockno : Nat} {blocks : List Nat} :
    (⟨dev, blockno⟩ : BlockAddr) ∈ blocks.map (⟨dev, ·⟩) ↔ blockno ∈ blocks := by
  simp

/-- An update that finds room in the log returns, changes the content of its
block and leaves the disk alone. -/
theorem Running.update (running : Running pid content s) (blockno : Nat) (change : Block → Block)
    (small : s.log.size ≤ LOGSIZE) (room : s.log.lh.n + 1 < s.log.size) :
    ∃ s' lh, s.update pid blockno change = .ok s' ∧ s'.log = { s.log with lh := lh } ∧
      lh.blocks = (if blockno ∈ s.log.lh.blocks then s.log.lh.blocks
        else s.log.lh.blocks ++ [blockno]) ∧
      Running pid (Update.apply s.log.dev content ⟨blockno, change⟩) s' ∧
      s'.layer.disk = s.layer.disk ∧ s'.layer.writes = s.layer.writes := by
  obtain ⟨holding, nonneg, nodup, outstanding, committing⟩ := running
  have few : (s.log.lh.blocks.map fun b => (⟨s.log.dev, b⟩ : BlockAddr)).length + 0 < NBUF := by
    have : LOGSIZE = NBUF := rfl
    simp only [List.length_map, Logheader.length_blocks]
    omega
  obtain ⟨i, m₁, read, solo₁, label₁, -, -, disk₁, writes₁⟩ :=
    holding.solo.bread s.log.dev blockno (by simp) (.inl few)
  have data₁ := solo₁.data (i := i) (by simp)
  have solo₂ := solo₁.setData (i := i) (by simp) (change (m₁.buf i).data)
  have label₂ : ((m₁.setData i (change (m₁.buf i).data)).buf i).addr = ⟨s.log.dev, blockno⟩ :=
    (BlockLayer.update_addr _ _ _ rfl).trans label₁
  obtain ⟨m₂, stored⟩ : ∃ m₂, m₁.setData i (change (m₁.buf i).data) = m₂ := ⟨_, rfl⟩
  have disk₂ : m₂.disk = s.layer.disk := stored ▸ disk₁
  have writes₂ : m₂.writes = s.layer.writes := stored ▸ writes₁
  rw [stored, data₁, label₁] at solo₂
  rw [stored] at label₂
  have number : (m₂.buf i).blockno = blockno := (BlockAddr.mk.inj label₂).2
  have check : s.log.checkWrite = .ok () := by
    rw [Log.checkWrite, if_neg (by omega), if_neg (by omega)]
  obtain ⟨lh, recorded, nonneg', blocks'⟩ := s.log.recordWrite_ok nonneg (by omega) blockno
  -- the buffer ends up pinned, by this call or by an earlier one
  obtain ⟨m₃, pins, solo₃, label₃, disk₃, writes₃⟩ : ∃ m₃,
      (if decide (blockno ∉ s.log.lh.blocks) = true then m₂.bpin i else m₂) = m₃ ∧
      Solo pid (Update.apply s.log.dev content ⟨blockno, change⟩) 1
        (lh.blocks.map (⟨s.log.dev, ·⟩)) [i] m₃ ∧
      (m₃.buf i).addr = ⟨s.log.dev, blockno⟩ ∧ m₃.disk = s.layer.disk ∧
      m₃.writes = s.layer.writes := by
    by_cases logged : blockno ∈ s.log.lh.blocks
    · refine ⟨_, if_neg (by simpa using logged), ?_, label₂, disk₂, writes₂⟩
      rw [blocks', if_pos logged]
      exact solo₂
    · refine ⟨_, if_pos (by simpa using logged), ?_,
        (BlockLayer.update_addr _ _ _ rfl).trans label₂, disk₂, writes₂⟩
      have pinned := solo₂.bpin (i := i) (by simp) (by rw [label₂]; simpa using logged)
      rw [label₂] at pinned
      refine pinned.congr_referenced fun a => ?_
      rw [blocks', if_neg logged, List.map_append, List.mem_append, List.mem_cons, or_comm]
      simp
  have isPinned : (m₃.buf i).addr ∈ lh.blocks.map (⟨s.log.dev, ·⟩) := by
    rw [label₃, mem_map_addr, blocks']
    split
    · assumption
    · simp
  obtain ⟨m₄, released, solo₄, -, disk₄, writes₄⟩ := solo₃.brelse (by simp) (.inl isPinned)
  refine ⟨⟨m₄, { s.log with lh := lh }, s.regs⟩, lh, ?_, rfl, blocks', ?_, disk₄.trans disk₃,
    writes₄.trans writes₃⟩
  · rw [LogState.update, read]
    simp only [bind, Except.bind, stored, check, number, recorded, pins, released, pure,
      Except.pure]
  · refine ⟨⟨by simpa using solo₄, by simp⟩, nonneg', ?_, outstanding, committing⟩
    change lh.blocks.Nodup
    rw [blocks']
    split
    · exact nodup
    · next fresh =>
      exact List.nodup_append.mpr ⟨nodup, by simp, fun a member b last => by
        rw [List.mem_singleton.mp last]
        exact fun same => fresh (same ▸ member)⟩

/-- The updates of a transaction, of which those of `before` are done. -/
theorem Running.updates (before rest : Transaction) (running : Running pid content s)
    (small : s.log.size ≤ LOGSIZE) (fits : Transaction.Fits s.log.size (before ++ rest))
    (logged : ∀ blockno, blockno ∈ s.log.lh.blocks ↔ blockno ∈ before.map Update.blockno) :
    ∃ s' lh, rest.foldlM (fun s update => s.update pid update.blockno update.change) s = .ok s' ∧
      s'.log = { s.log with lh := lh } ∧
      (∀ blockno, blockno ∈ lh.blocks ↔ blockno ∈ (before ++ rest).map Update.blockno) ∧
      Running pid (Transaction.apply s.log.dev content rest) s' ∧
      s'.layer.disk = s.layer.disk ∧ s'.layer.writes = s.layer.writes := by
  induction rest generalizing before content s with
  | nil => exact ⟨s, s.log.lh, rfl, rfl, by simpa using logged, running, rfl, rfl⟩
  | cons update rest ih =>
      have card : s.log.lh.n = ((before.map Update.blockno).toFinset.card : Nat) := by
        have same : s.log.lh.blocks.toFinset = (before.map Update.blockno).toFinset := by
          ext blockno
          simpa using logged blockno
        rw [← same, List.toFinset_card_of_nodup running.nodup, Logheader.length_blocks,
          Int.toNat_of_nonneg running.nonneg]
      have room := fits before.length (by simp)
      rw [List.take_left] at room
      obtain ⟨s₁, lh₁, update₁, log₁, blocks₁, running₁, disk₁, writes₁⟩ :=
        running.update update.blockno update.change small (by omega)
      have split : before ++ update :: rest = (before ++ [update]) ++ rest := by simp
      obtain ⟨s₂, lh₂, updates₂, log₂, blocks₂, running₂, disk₂, writes₂⟩ :=
        ih (before ++ [update]) running₁ (by rw [log₁]; exact small)
          (by rw [log₁, ← split]; exact fits)
          (fun blockno => by
            rw [log₁, blocks₁, List.map_append, List.mem_append, ← logged]
            split
            · next old => simpa using fun same => same ▸ old
            · simp)
      rw [log₁] at log₂ running₂
      refine ⟨s₂, lh₂, ?_, log₂, by rw [split]; exact blocks₂, running₂, disk₂.trans disk₁,
        writes₂.trans writes₁⟩
      rw [List.foldlM_cons, update₁]
      exact updates₂

/-- No transaction is open and the log on the disk is empty. -/
structure Idle (pid dev start size : Nat) (s : LogState) : Prop where
  holding : Holding pid s.layer.disk 1 [] [] s
  log : s.log = { start := start, size := size, dev := dev, lh := ⟨0, s.log.lh.block⟩ }
  header : Logheader.headN (s.layer.disk ⟨dev, start⟩) = 0

/-- The block writes of a committed transaction: those of a commit whose header
lists the blocks of the transaction. -/
def CommitOf (dev start size : Nat) (disk : Disk) (tx : Transaction)
    (writes : List (BlockAddr × Block)) : Prop :=
  ∃ full empty,
    writes = (redoLog dev start size).commitWrites full empty (tx.apply dev disk) ∧
    (redoLog dev start size).WellFormed full ∧ 0 < Logheader.headN full ∧
    Logheader.headN empty = 0 ∧
    ∀ a, (∃ i < (redoLog dev start size).count full, (redoLog dev start size).entry full i = a) ↔
      ∃ update ∈ tx, a = ⟨dev, update.blockno⟩

/-- `begin_op` opens a transaction of an idle log. -/
private theorem Idle.begin {dev start size : Nat} (idle : Idle pid dev start size s) :
    s.log.beginOp = .ok { s.log with outstanding := 1 } ∧
      Running pid s.layer.disk { s with log := { s.log with outstanding := 1 } } := by
  obtain ⟨holding, log, header⟩ := idle
  constructor
  · rw [log]
    rfl
  · have blocks : s.log.lh.blocks = [] := by
      rw [log]
      rfl
    refine ⟨⟨?_, by simp⟩, ?_, ?_, rfl, ?_⟩
    · simpa [blocks] using holding.solo
    · rw [log]
    · simp [blocks]
    · rw [log]

/-- The state in which the `end_op` of a transaction commits. -/
structure Ending (pid dev start size : Nat) (content : Disk) (tx : Transaction) (s : LogState) :
    Prop where
  holding : Holding pid content 1 ((List.range s.log.lh.n.toNat).map s.log.homeAddr) [] s
  log : s.log = { start := start, size := size, dev := dev, lh := s.log.lh, committing := true }
  nonneg : 0 ≤ s.log.lh.n
  nodup : s.log.lh.blocks.Nodup
  blocks : ∀ blockno, blockno ∈ s.log.lh.blocks ↔ blockno ∈ tx.map Update.blockno

private theorem map_homeAddr (log : Log) :
    (List.range log.lh.n.toNat).map log.homeAddr = log.lh.blocks.map (⟨log.dev, ·⟩) := by
  simp [Logheader.blocks, Log.homeAddr]

/-- A transaction that fits reaches the commit with its blocks pinned. -/
private theorem Idle.ending {dev start size : Nat} (idle : Idle pid dev start size s)
    {tx : Transaction} (small : size ≤ LOGSIZE) (fits : tx.Fits size) :
    ∃ s', s.transaction pid tx = (exec pid s'.log.commit s' >>= fun s =>
        .ok { s with log := { s.log with committing := false } }) ∧
      Ending pid dev start size (tx.apply dev s.layer.disk) tx s' ∧
      s'.layer.disk = s.layer.disk ∧ s'.layer.writes = s.layer.writes := by
  obtain ⟨begun, running⟩ := idle.begin
  have log := idle.log
  rw [log] at begun running
  obtain ⟨s₁, lh, updates, log₁, blocks, running₁, disk₁, writes₁⟩ :=
    running.updates [] tx small fits (by simp [Logheader.blocks])
  let s₂ : LogState := { s₁ with log := {
    start := start, size := size, dev := dev, lh := lh, outstanding := 0, committing := true } }
  refine ⟨s₂, ?_, ⟨⟨?_, by simp⟩, rfl, ?_, ?_, blocks⟩, disk₁, writes₁⟩
  · rw [LogState.transaction, log, begun]
    simp only [bind, Except.bind]
    rw [updates]
    simp only [LogState.endOp, log₁]
    rfl
  · rw [map_homeAddr]
    simpa [s₂, log₁] using running₁.holding.solo
  · simpa [s₂, log₁] using running₁.nonneg
  · simpa [s₂, log₁] using running₁.nodup

namespace Ending

variable {dev start size : Nat} {tx : Transaction}

/-- An empty transaction has nothing to commit. -/
private theorem of_empty (ending : Ending pid dev start size content [] s) : s.log.lh.n = 0 := by
  have empty : s.log.lh.blocks = [] :=
    List.eq_nil_iff_forall_not_mem.mpr fun blockno => by simp [ending.blocks]
  have none := congrArg List.length empty
  have := ending.nonneg
  simp only [Logheader.length_blocks, List.length_nil] at none
  omega

private theorem positive (ending : Ending pid dev start size content tx s) (some : tx ≠ []) :
    0 < s.log.lh.n := by
  obtain ⟨update, member⟩ := List.exists_mem_of_ne_nil tx some
  have logged := (ending.blocks update.blockno).mpr (List.mem_map_of_mem member)
  have := List.length_pos_of_mem logged
  rw [Logheader.length_blocks] at this
  omega

/-- The header of a transaction over home blocks can be committed. -/
private theorem listed (ending : Ending pid dev start size content tx s) (some : tx ≠ [])
    (small : size ≤ LOGSIZE) (fits : tx.Fits size) (home : tx.Home dev start size) :
    Listed s.log := by
  obtain ⟨holding, log, nonneg, nodup, blocks⟩ := ending
  have card : s.log.lh.n < size := by
    have same : s.log.lh.blocks.toFinset = (tx.map Update.blockno).toFinset := by
      ext blockno
      simpa using blocks blockno
    have bound := fits.card_lt some
    rw [← same, List.toFinset_card_of_nodup nodup, Logheader.length_blocks] at bound
    omega
  have inTx : ∀ i < s.log.lh.n.toNat, s.log.lh.block i < 2 ^ 32 ∧
      (redoLog dev start size).IsHome ⟨dev, s.log.lh.block i⟩ := by
    intro i below
    have logged := (blocks (s.log.lh.block i)).mp (Logheader.mem_blocks.mpr ⟨i, below, rfl⟩)
    obtain ⟨update, member, same⟩ := List.mem_map.mp logged
    exact same ▸ home update member
  refine ⟨nonneg, by omega, ?_, fun i below => (inTx i below).1, fun i below => ?_, ?_⟩
  · rw [log]
    exact card
  · rw [Log.homeAddr, log]
    exact (inTx i below).2
  · rw [map_homeAddr]
    exact map_addr_nodup _ nodup

end Ending

/-- Once the commit is done and `committing` is reset, the log is idle. -/
private theorem Ending.idle {dev start size : Nat} {tx : Transaction} {s' : LogState}
    (ending : Ending pid dev start size content tx s)
    (log : s'.log = { s.log with lh := { s.log.lh with n := 0 } })
    (holding : Holding pid s'.layer.disk 1 [] [] s')
    (header : Logheader.headN (s'.layer.disk ⟨dev, start⟩) = 0) :
    Idle pid dev start size { s' with log := { s'.log with committing := false } } := by
  refine ⟨⟨holding.solo, by simp⟩, ?_, header⟩
  rw [log, ending.log]

/-- A transaction that fits commits: nothing happens to the disk when it is
empty, and otherwise the writes of a commit do. -/
theorem Idle.transaction {dev start size : Nat} (idle : Idle pid dev start size s)
    {tx : Transaction} (small : size ≤ LOGSIZE) (fits : tx.Fits size)
    (home : tx.Home dev start size) :
    ∃ s' writes, s.transaction pid tx = .ok s' ∧ Idle pid dev start size s' ∧
      s'.layer.writes = s.layer.writes ++ writes ∧
      s'.layer.disk = replay writes s.layer.disk ∧
      (tx = [] ∧ writes = [] ∨ tx ≠ [] ∧ CommitOf dev start size s.layer.disk tx writes) := by
  obtain ⟨s₂, runs, ending, disk₂, writes₂⟩ := idle.ending small fits
  by_cases none : tx = []
  · subst none
    have zero := ending.of_empty
    have nothing : s₂.log.commit = [] := if_neg (by omega)
    have holding : Holding pid s₂.layer.disk 1 [] [] s₂ := by
      have := ending.holding
      rw [zero] at this
      rw [disk₂]
      exact this
    have same : s₂.log = { s₂.log with lh := { s₂.log.lh with n := 0 } } := by rw [← zero]
    refine ⟨_, [], by rw [runs, nothing]; rfl, ending.idle same holding ?_, by simpa using writes₂,
      disk₂, .inl ⟨rfl, rfl⟩⟩
    rw [disk₂]
    exact idle.header
  · have listed := ending.listed none small fits home
    have positive := ending.positive none
    obtain ⟨b, b', s₃, does, log₃, holding₃⟩ := ending.holding.commit listed positive
    have log := ending.log
    have redo : redoLog s₂.log.dev s₂.log.start s₂.log.size = redoLog dev start size := by rw [log]
    have full := Logheader.headN_store listed.nonneg (le_of_lt listed.small) b
    have empty : Logheader.headN (Logheader.store { s₂.log.lh with n := 0 } b') = 0 :=
      Logheader.headN_store (le_refl 0) (by simp) b'
    obtain ⟨run, disk₃, writes₃⟩ := does
    have header : s₃.layer.disk ⟨dev, start⟩ = Logheader.store { s₂.log.lh with n := 0 } b' := by
      rw [disk₃, redo]
      exact RedoLog.replay_commitWrites_header
    rw [redo, disk₂] at disk₃
    rw [redo, writes₂] at writes₃
    refine ⟨_, _, by rw [runs, run]; rfl, ending.idle log₃ holding₃ (by rw [header, empty]),
      writes₃, disk₃, .inr ⟨none, _, _, rfl, ?_, by rw [full]; exact positive, empty, ?_⟩⟩
    · rw [← redo]
      exact listed.wellFormed b
    · intro a
      have count := listed.count_store b
      rw [redo] at count
      rw [count]
      constructor
      · rintro ⟨i, below, rfl⟩
        have entry := listed.entry_store b below
        rw [redo] at entry
        have logged := (ending.blocks _).mp (Logheader.mem_blocks.mpr ⟨i, below, rfl⟩)
        obtain ⟨update, member, same⟩ := List.mem_map.mp logged
        refine ⟨update, member, ?_⟩
        rw [entry, Log.homeAddr, same, log]
      · rintro ⟨update, member, rfl⟩
        obtain ⟨i, below, same⟩ := Logheader.mem_blocks.mp
          ((ending.blocks update.blockno).mpr (List.mem_map_of_mem member))
        have entry := listed.entry_store b below
        rw [redo] at entry
        refine ⟨i, below, ?_⟩
        rw [entry, Log.homeAddr, same, log]

/-- Transactions one after another. -/
def run (pid : Nat) (txs : List Transaction) (s : LogState) : Except Fault LogState :=
  txs.foldlM (transaction pid) s

end LogState

/-- Number of commit-time headers among some block writes. -/
def headersWritten (dev start : Nat) (writes : List (BlockAddr × Block)) : Nat :=
  writes.countP fun write => write.1 = ⟨dev, start⟩ ∧ 0 < Logheader.headN write.2

/-- The content of the home blocks after some transactions. -/
def homeAfter (dev : Nat) (disk : Disk) (txs : List Transaction) : Disk :=
  txs.foldl (Transaction.apply dev) disk

/-- An update changes no block but its own. -/
theorem Transaction.apply_of_not_mem {dev : Nat} {tx : Transaction} {disk : Disk} {a : BlockAddr}
    (untouched : ∀ update ∈ tx, a ≠ ⟨dev, update.blockno⟩) : tx.apply dev disk a = disk a := by
  induction tx generalizing disk with
  | nil => rfl
  | cons update tx ih =>
      rw [Transaction.apply, List.foldl_cons]
      refine (ih fun later member => untouched later (List.mem_cons_of_mem _ member)).trans ?_
      exact Function.update_of_ne (untouched update List.mem_cons_self) _ _

theorem headersWritten_append (dev start : Nat) (first second : List (BlockAddr × Block)) :
    headersWritten dev start (first ++ second) =
      headersWritten dev start first + headersWritten dev start second :=
  List.countP_append

/-- Writes that are no header or an empty one commit nothing. -/
theorem headersWritten_eq_zero {dev start : Nat} {writes : List (BlockAddr × Block)}
    (none : ∀ write ∈ writes, write.1 = ⟨dev, start⟩ → Logheader.headN write.2 = 0) :
    headersWritten dev start writes = 0 := by
  refine List.countP_eq_zero.mpr fun write member => ?_
  simp only [decide_eq_true_eq, not_and]
  intro header
  rw [none write member header]
  exact lt_irrefl 0

/-- A commit whose header reached the disk has written one. -/
theorem headersWritten_commit (dev start size : Nat) {full empty : Block} (value : Disk)
    {rest : List (BlockAddr × Block)} (positive : 0 < Logheader.headN full)
    (zero : Logheader.headN empty = 0)
    (erasing : ∀ write ∈ rest, write.1 = ⟨dev, start⟩ → write.2 = empty) :
    headersWritten dev start ((redoLog dev start size).slotWrites full value ++
      (⟨dev, start⟩, full) :: rest) = 1 := by
  have slots : headersWritten dev start ((redoLog dev start size).slotWrites full value) = 0 :=
    headersWritten_eq_zero fun write member same =>
      absurd same (RedoLog.slotWrites_ne_header member)
  have tail : headersWritten dev start rest = 0 :=
    headersWritten_eq_zero fun write member same => by rw [erasing write member same, zero]
  rw [headersWritten_append, slots]
  simp only [headersWritten] at tail ⊢
  rw [List.countP_cons_of_pos (by simpa using positive), tail]

/-- What holds after the transactions `txs`, none of them empty, of a machine
that booted over `disk`: how far the disk has come, and what every crash leaves. -/
structure RunInv (pid dev start size : Nat) (disk : Disk) (txs : List Transaction)
    (s : LogState) : Prop where
  idle : LogState.Idle pid dev start size s
  disk_eq : s.layer.disk = replay s.layer.writes disk
  current : ∀ a, (redoLog dev start size).IsHome a → s.layer.disk a = homeAfter dev disk txs a
  headers : headersWritten dev start s.layer.writes = txs.length
  crash : ∀ done, done <+: s.layer.writes →
    (redoLog dev start size).WellFormed (replay done disk ⟨dev, start⟩) ∧
      headersWritten dev start done ≤ txs.length ∧
      ∀ a, (redoLog dev start size).IsHome a →
        (redoLog dev start size).view (replay done disk) a =
          homeAfter dev disk (txs.take (headersWritten dev start done)) a

namespace RunInv

variable {pid dev start size : Nat} {disk : Disk} {txs : List Transaction} {s : LogState}

/-- A boot over an empty log. -/
theorem boot (pid : Nat) (empty : Logheader.headN (disk ⟨dev, start⟩) = 0) :
    ∃ s, LogState.initlog pid dev start size disk = .ok s ∧
      RunInv pid dev start size disk [] s := by
  have count : (redoLog dev start size).count (disk ⟨dev, start⟩) = 0 := by simp [empty]
  have wellFormed := RedoLog.WellFormed.of_empty count
  obtain ⟨lh, b, content, s, ran, writes, disk', log, holding⟩ :=
    LogState.initlog_ok pid (by rw [count]; decide) wellFormed
  have cleared : Logheader.headN (Logheader.store { lh with n := 0 } b) = 0 :=
    Logheader.headN_store (le_refl 0) (by simp) b
  have zero : (redoLog dev start size).count (Logheader.store { lh with n := 0 } b) = 0 := by
    simp [cleared]
  rw [count] at holding
  have only : ∀ write ∈ s.layer.writes, Logheader.headN write.2 = 0 := by
    rw [writes, RedoLog.recoveryWrites, redoLog_header, count]
    intro write member
    rw [List.mem_singleton.mp member]
    exact cleared
  have noHeader : ∀ done, done <+: s.layer.writes → headersWritten dev start done = 0 :=
    fun done before => headersWritten_eq_zero fun write member _ => only write (before.subset member)
  have same : (redoLog dev start size).view disk = disk := RedoLog.view_of_empty count
  refine ⟨s, ran, ⟨⟨?_, ?_, ?_⟩, disk', fun a home => ?_, noHeader _ (List.prefix_refl _),
    fun done before => ?_⟩⟩
  · rw [holding.disk_eq]
    exact ⟨holding.solo.reweigh (by decide), holding.label⟩
  · rw [log]
  · rw [disk', writes]
    exact (congrArg Logheader.headN (RedoLog.replay_recoveryWrites_header _ _ _)).trans cleared
  · rw [disk', writes, RedoLog.replay_recovery wellFormed zero home, same]
    rfl
  · have after := RedoLog.view_recovery wellFormed zero (writes ▸ before)
    rw [noHeader done before]
    refine ⟨after.1, Nat.zero_le _, fun a home => ?_⟩
    rw [after.2 a home, same]
    rfl

/-- One more transaction that commits. -/
theorem commit {s' : LogState} (inv : RunInv pid dev start size disk txs s) {tx : Transaction}
    (home : tx.Home dev start size) {writes : List (BlockAddr × Block)}
    (idle : LogState.Idle pid dev start size s')
    (appended : s'.layer.writes = s.layer.writes ++ writes)
    (replayed : s'.layer.disk = replay writes s.layer.disk)
    (committed : LogState.CommitOf dev start size s.layer.disk tx writes) :
    RunInv pid dev start size disk (txs ++ [tx]) s' := by
  obtain ⟨full, empty, rfl, wellFormed, positive, zero, listed⟩ := committed
  have before : (redoLog dev start size).count (s.layer.disk ⟨dev, start⟩) = 0 := by
    simp [inv.idle.header]
  have cleared : (redoLog dev start size).count empty = 0 := by simp [zero]
  have updated : homeAfter dev disk (txs ++ [tx]) = tx.apply dev (homeAfter dev disk txs) := by
    simp [homeAfter]
  -- after the header the view is the state after the transaction
  have new : ∀ a, (redoLog dev start size).IsHome a →
      (if ∃ i < (redoLog dev start size).count full, (redoLog dev start size).entry full i = a
        then tx.apply dev s.layer.disk a else s.layer.disk a) =
        homeAfter dev disk (txs ++ [tx]) a := by
    intro a isHome
    rw [updated, ← Transaction.apply_congr home inv.current a isHome]
    split
    · rfl
    · next unlisted =>
      rw [listed] at unlisted
      exact (Transaction.apply_of_not_mem fun update member same =>
        unlisted ⟨update, member, same⟩).symm
  have split : ∀ rest, rest <+: (redoLog dev start size).commitWrites full empty
      (tx.apply dev s.layer.disk) →
      (redoLog dev start size).WellFormed (replay rest s.layer.disk ⟨dev, start⟩) ∧
      ((headersWritten dev start rest = 0 ∧ ∀ a, (redoLog dev start size).IsHome a →
          (redoLog dev start size).view (replay rest s.layer.disk) a = homeAfter dev disk txs a) ∨
        (headersWritten dev start rest = 1 ∧ ∀ a, (redoLog dev start size).IsHome a →
          (redoLog dev start size).view (replay rest s.layer.disk) a =
            homeAfter dev disk (txs ++ [tx]) a)) := by
    intro rest doing
    obtain ⟨kept, cases⟩ := RedoLog.view_commit before wellFormed cleared doing
    refine ⟨kept, ?_⟩
    rcases cases with ⟨noHeader, view⟩ | ⟨⟨after, rfl, erasing⟩, view⟩
    · refine .inl ⟨headersWritten_eq_zero fun write member same => absurd same (noHeader write member),
        fun a isHome => ?_⟩
      rw [view a isHome, inv.current a isHome]
    · refine .inr ⟨?_, fun a isHome => by rw [view a isHome, new a isHome]⟩
      exact headersWritten_commit dev start size _ positive zero erasing
  have headers : headersWritten dev start s'.layer.writes = (txs ++ [tx]).length := by
    obtain ⟨rest, shape, erasing⟩ :=
      RedoLog.commitWrites_tail wellFormed empty (tx.apply dev s.layer.disk)
    have one := headersWritten_commit dev start size (tx.apply dev s.layer.disk) positive zero erasing
    rw [appended, headersWritten_append, inv.headers, shape]
    simpa using one
  refine ⟨idle, ?_, fun a isHome => ?_, headers, fun done before => ?_⟩
  · rw [replayed, appended, replay_append, ← inv.disk_eq]
  · rw [replayed, RedoLog.replay_commit wellFormed cleared isHome, new a isHome]
  · rw [appended] at before
    rcases prefix_append_cases before with earlier | ⟨rest, doing, rfl⟩
    · obtain ⟨kept, bound, view⟩ := inv.crash done earlier
      refine ⟨kept, by simp; omega, fun a isHome => ?_⟩
      rw [view a isHome, List.take_append_of_le_length bound]
    · rw [replay_append, ← inv.disk_eq, headersWritten_append, inv.headers]
      obtain ⟨kept, ⟨none, view⟩ | ⟨one, view⟩⟩ := split rest doing
      · refine ⟨kept, by simp [none], fun a isHome => ?_⟩
        rw [view a isHome, none, Nat.add_zero, List.take_left]
      · refine ⟨kept, by simp [one], fun a isHome => ?_⟩
        rw [view a isHome, one, List.take_of_length_le (by simp)]

/-- Transactions that fit and are about home blocks all return. -/
theorem run (small : size ≤ LOGSIZE) {more : List Transaction}
    (fits : ∀ tx ∈ more, tx.Fits size) (home : ∀ tx ∈ more, tx.Home dev start size)
    (inv : RunInv pid dev start size disk txs s) :
    ∃ s', LogState.run pid more s = .ok s' ∧
      RunInv pid dev start size disk (txs ++ more.filter fun tx => !tx.isEmpty) s' := by
  induction more generalizing txs s with
  | nil => exact ⟨s, rfl, by simpa using inv⟩
  | cons tx more ih =>
      have fits' : ∀ later ∈ more, Transaction.Fits size later :=
        fun later member => fits later (List.mem_cons_of_mem _ member)
      have home' : ∀ later ∈ more, Transaction.Home dev start size later :=
        fun later member => home later (List.mem_cons_of_mem _ member)
      obtain ⟨s₁, writes, ran, idle, appended, replayed, cases⟩ :=
        inv.idle.transaction small (fits tx List.mem_cons_self) (home tx List.mem_cons_self)
      rcases cases with ⟨rfl, rfl⟩ | ⟨some, committed⟩
      · have same : s₁.layer.writes = s.layer.writes := by simpa using appended
        have inv₁ : RunInv pid dev start size disk txs s₁ :=
          ⟨idle, by rw [same, replayed]; exact inv.disk_eq, by rw [replayed]; exact inv.current,
            by rw [same]; exact inv.headers, by rw [same]; exact inv.crash⟩
        obtain ⟨s₂, ran₂, inv₂⟩ := ih fits' home' inv₁
        refine ⟨s₂, ?_, by simpa using inv₂⟩
        rw [LogState.run, List.foldlM_cons, ran]
        exact ran₂
      · have inv₁ := inv.commit (home tx List.mem_cons_self) idle appended replayed committed
        obtain ⟨s₂, ran₂, inv₂⟩ := ih fits' home' inv₁
        refine ⟨s₂, ?_, ?_⟩
        · rw [LogState.run, List.foldlM_cons, ran]
          exact ran₂
        · simpa [some] using inv₂

end RunInv

/-- The disks that are left when the boot over `disk` crashes after any of its
block writes, and the boot over what is left crashes again, any number of times. -/
inductive CrashedBoots (pid dev start size : Nat) (disk : Disk) : Disk → Prop where
  | none : CrashedBoots pid dev start size disk disk
  | again {left s done} (prior : CrashedBoots pid dev start size disk left)
      (boot : LogState.initlog pid dev start size left = .ok s) (before : done <+: s.layer.writes) :
      CrashedBoots pid dev start size disk (replay done left)

section Recovery

variable {pid dev start size : Nat} {disk : Disk}

/-- A boot over a well-formed log brings every home block to its view, and a
crash after any of its writes leaves the views. -/
theorem initlog_view (pid : Nat) (small : size ≤ LOGSIZE)
    (wellFormed : (redoLog dev start size).WellFormed (disk ⟨dev, start⟩)) :
    ∃ s, LogState.initlog pid dev start size disk = .ok s ∧
      (∀ a, (redoLog dev start size).IsHome a →
        s.layer.disk a = (redoLog dev start size).view disk a) ∧
      ∀ done, done <+: s.layer.writes →
        (redoLog dev start size).WellFormed (replay done disk ⟨dev, start⟩) ∧
        ∀ a, (redoLog dev start size).IsHome a →
          (redoLog dev start size).view (replay done disk) a = (redoLog dev start size).view disk a := by
  have room : (redoLog dev start size).count (disk ⟨dev, start⟩) < NBUF := by
    have few : (redoLog dev start size).count (disk ⟨dev, start⟩) ≤ size - 1 := wellFormed.fits
    have : LOGSIZE = NBUF := rfl
    have : 0 < NBUF := by decide
    omega
  obtain ⟨lh, b, content, s, ran, writes, disk', log, holding⟩ :=
    LogState.initlog_ok pid room wellFormed
  have zero : (redoLog dev start size).count (Logheader.store { lh with n := 0 } b) = 0 := by
    have cleared : Logheader.headN (Logheader.store { lh with n := 0 } b) = 0 :=
      Logheader.headN_store (le_refl 0) (by simp) b
    simp [cleared]
  refine ⟨s, ran, fun a home => ?_, fun done before => ?_⟩
  · rw [disk', writes]
    exact RedoLog.replay_recovery wellFormed zero home
  · exact RedoLog.view_recovery wellFormed zero (writes ▸ before)

/-- Crashes inside recovery leave a well-formed log and every view. -/
theorem CrashedBoots.view (small : size ≤ LOGSIZE)
    (wellFormed : (redoLog dev start size).WellFormed (disk ⟨dev, start⟩)) {left : Disk}
    (crashed : CrashedBoots pid dev start size disk left) :
    (redoLog dev start size).WellFormed (left ⟨dev, start⟩) ∧
      ∀ a, (redoLog dev start size).IsHome a →
        (redoLog dev start size).view left a = (redoLog dev start size).view disk a := by
  induction crashed with
  | none => exact ⟨wellFormed, fun _ _ => rfl⟩
  | again prior boot before ih =>
      obtain ⟨s, ran, _, crash⟩ := initlog_view pid small ih.1
      obtain rfl := Except.ok.inj (boot.symm.trans ran)
      have after := crash _ before
      exact ⟨after.1, fun a home => (after.2 a home).trans (ih.2 a home)⟩

end Recovery

/-- Crash atomicity of the log. A machine boots over a disk with an empty log and
runs any transactions that fit the log. Then all of them return, and whenever
the machine crashes after some of the block writes (`done`), and any number of
boots after it crash as well, the next boot returns and leaves on every block
outside the log the content after the first `k` transactions that write anything,
where `k` is the number of commit-time headers that reached the disk. -/
theorem log_crashAtomic (pid dev start size : Nat) (disk : Disk) (txs : List Transaction)
    (small : size ≤ LOGSIZE) (empty : Logheader.headN (disk ⟨dev, start⟩) = 0)
    (fits : ∀ tx ∈ txs, tx.Fits size) (home : ∀ tx ∈ txs, tx.Home dev start size) :
    ∃ s, (LogState.initlog pid dev start size disk >>= LogState.run pid txs) = .ok s ∧
      headersWritten dev start s.layer.writes = (txs.filter fun tx => !tx.isEmpty).length ∧
      ∀ done, done <+: s.layer.writes →
        ∀ left, CrashedBoots pid dev start size (replay done disk) left →
          ∃ s', LogState.initlog pid dev start size left = .ok s' ∧
            ∀ a, (redoLog dev start size).IsHome a →
              s'.layer.disk a = homeAfter dev disk
                ((txs.filter fun tx => !tx.isEmpty).take (headersWritten dev start done)) a := by
  obtain ⟨s₀, booted, inv₀⟩ := RunInv.boot pid empty
  obtain ⟨s, ran, inv⟩ := inv₀.run small fits home
  rw [List.nil_append] at inv
  refine ⟨s, by rw [booted]; exact ran, inv.headers, fun done before left crashed => ?_⟩
  obtain ⟨wellFormed, _, view⟩ := inv.crash done before
  obtain ⟨wellFormed', same⟩ := crashed.view small wellFormed
  obtain ⟨s', ran', recovered, _⟩ := initlog_view pid small wellFormed'
  exact ⟨s', ran', fun a isHome => by rw [recovered a isHome, same a isHome, view a isHome]⟩

/-- A crash at the end of a run that wrote block 100 once. -/
theorem log_crashAtomic_oneBlock : ∃ s s',
    (LogState.initlog 1 0 2 LOGSIZE (fun _ _ => 0) >>=
      LogState.run 1 [[⟨100, fun _ _ => 7⟩]]) = .ok s ∧
    headersWritten 0 2 s.layer.writes = 1 ∧
    LogState.initlog 1 0 2 LOGSIZE (replay s.layer.writes fun _ _ => 0) = .ok s' ∧
    s'.layer.disk ⟨0, 100⟩ = fun _ => 7 := by
  have isHome : (redoLog 0 2 LOGSIZE).IsHome ⟨0, 100⟩ := by
    rw [redoLog_isHome (by decide)]
    decide
  have fits : ∀ tx ∈ [[⟨100, fun _ _ => 7⟩]], Transaction.Fits LOGSIZE tx := by
    intro tx member k below
    rw [List.mem_singleton.mp member] at below ⊢
    obtain rfl : k = 0 := by simpa using below
    decide
  have home : ∀ tx ∈ [[⟨100, fun _ _ => 7⟩]], Transaction.Home 0 2 LOGSIZE tx := by
    intro tx member update place
    rw [List.mem_singleton.mp member, List.mem_singleton] at place
    rw [place]
    exact ⟨by decide, isHome⟩
  obtain ⟨s, ran, headers, crash⟩ := log_crashAtomic 1 0 2 LOGSIZE (fun _ _ => 0)
    [[⟨100, fun _ _ => 7⟩]] (le_refl LOGSIZE) (by decide) fits home
  obtain ⟨s', booted, same⟩ := crash _ (List.prefix_refl _) _ .none
  refine ⟨s, s', ran, headers, booted, ?_⟩
  rw [same _ isHome, headers]
  rfl

end Riscv2os.Xv7
