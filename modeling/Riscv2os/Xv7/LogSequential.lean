import Riscv2os.Xv7.BioSequential
import Riscv2os.Xv7.LogHeader

/-!
# The functions of `log.c` when nothing else runs

One lemma for each function that commits or recovers: it returns, and what it
writes to the disk, in order, is a list of writes that the lemma names. The
content that the cache is meant to have and the disk change by those writes.
-/

namespace Riscv2os.Xv7

open Riscv2os.Std

namespace LogState

variable {pid : Nat} {content : Disk} {weight : BitVec 32} {referenced : List BlockAddr}
  {held : List (Fin NBUF)} {s : LogState}

theorem exec_append (pid : Nat) (first second : List Instr) (s : LogState) :
    exec pid (first ++ second) s = exec pid first s >>= exec pid second := by
  induction first generalizing s with
  | nil => rfl
  | cons instr code ih =>
      simp only [List.cons_append, exec, bind, Except.bind]
      cases s.step pid instr with
      | error _ => rfl
      | ok s => exact ih s

/-- Running `code` alone from `s` ends well, having written `writes`. -/
def Does (pid : Nat) (s : LogState) (code : List Instr) (writes : List (BlockAddr × Block))
    (s' : LogState) : Prop :=
  exec pid code s = .ok s' ∧ s'.layer.disk = replay writes s.layer.disk ∧
    s'.layer.writes = s.layer.writes ++ writes

theorem Does.nil (pid : Nat) (s : LogState) : Does pid s [] [] s := ⟨rfl, rfl, by simp⟩

theorem Does.append {s₁ s₂ s₃ : LogState} {first second : List Instr}
    {earlier later : List (BlockAddr × Block)} (before : Does pid s₁ first earlier s₂)
    (after : Does pid s₂ second later s₃) :
    Does pid s₁ (first ++ second) (earlier ++ later) s₃ := by
  obtain ⟨run, disk, writes⟩ := before
  obtain ⟨run', disk', writes'⟩ := after
  refine ⟨?_, ?_, ?_⟩
  · rw [exec_append, run]
    exact run'
  · rw [disk', disk, replay_append]
  · rw [writes', writes, List.append_assoc]

/-- A step that leaves the disk alone. -/
theorem Does.cons {s₁ s₂ s₃ : LogState} {instr : Instr} {code : List Instr}
    {writes : List (BlockAddr × Block)} (step : s₁.step pid instr = .ok s₂)
    (disk : s₂.layer.disk = s₁.layer.disk) (same : s₂.layer.writes = s₁.layer.writes)
    (after : Does pid s₂ code writes s₃) : Does pid s₁ (instr :: code) writes s₃ := by
  obtain ⟨run, disk', writes'⟩ := after
  refine ⟨?_, by rw [disk', disk], by rw [writes', same]⟩
  rw [exec, step]
  exact run

/-- The process runs alone and the registers `regs` hold buffers of the blocks
they are listed with. -/
structure Holding (pid : Nat) (content : Disk) (weight : BitVec 32)
    (referenced : List BlockAddr) (regs : List (Reg × BlockAddr)) (s : LogState) : Prop where
  solo : Solo pid content weight referenced (regs.map fun held => s.regs held.1) s.layer
  label : ∀ held ∈ regs, (s.layer.buf (s.regs held.1)).addr = held.2

namespace Holding

variable {regs : List (Reg × BlockAddr)}

theorem perm (holding : Holding pid content weight referenced regs s)
    {regs' : List (Reg × BlockAddr)} (same : regs.Perm regs') :
    Holding pid content weight referenced regs' s where
  solo := holding.solo.perm (same.map _)
  label held member := holding.label held (same.mem_iff.mpr member)

/-- `bread` of a block that is pinned or finds a free buffer. -/
theorem bread (holding : Holding pid content weight referenced regs s) (r : Reg) (blockno : Nat)
    (unused : ∀ held ∈ regs, held.1 ≠ r)
    (others : ∀ held ∈ regs, held.2 ≠ ⟨s.log.dev, blockno⟩ ∧ held.2 ∉ referenced)
    (room : referenced.length + regs.length < NBUF ∨ ⟨s.log.dev, blockno⟩ ∈ referenced) :
    ∃ s', Does pid s (Log.bread r blockno) [] s' ∧ s'.log = s.log ∧
      Holding pid content weight referenced ((r, ⟨s.log.dev, blockno⟩) :: regs) s' := by
  have apart : ∀ i ∈ regs.map fun held => s.regs held.1,
      (s.layer.buf i).addr ≠ ⟨s.log.dev, blockno⟩ ∧ (s.layer.buf i).refcnt ≠ 0 := by
    intro i member
    obtain ⟨held, place, rfl⟩ := List.mem_map.mp member
    have label := holding.label held place
    refine ⟨label ▸ (others held place).1, ?_⟩
    rw [holding.solo.refcnt_held member (label ▸ (others held place).2)]
    decide
  obtain ⟨i, m', read, solo, label, loose, kept, disk, writes⟩ :=
    holding.solo.bread s.log.dev blockno apart (by simpa using room)
  let s' : LogState := ⟨m', s.log, Function.update s.regs r i⟩
  have old : ∀ held ∈ regs, s'.regs held.1 = s.regs held.1 := fun held member =>
    Function.update_of_ne (unused held member) _ _
  refine ⟨s', ⟨?_, disk, by simpa using writes⟩, rfl, ⟨?_, fun held member => ?_⟩⟩
  · rw [BlockLayer.bread] at read
    cases got : s.layer.bget s.log.dev blockno with
    | error fault =>
        rw [got] at read
        cases read
    | ok result =>
        obtain ⟨k, m₁⟩ := result
        rw [got] at read
        cases locked : m₁.acquiresleep pid k with
        | error fault =>
            simp only [bind, Except.bind, locked] at read
            cases read
        | ok m₂ =>
            simp only [bind, Except.bind, locked, pure, Except.pure, Except.ok.injEq,
              Prod.mk.injEq] at read
            obtain ⟨rfl, rfl⟩ := read
            simp [s', Log.bread, exec, step, got, locked, withLayer, bind, Except.bind, pure,
              Except.pure, Functor.map, Except.map]
  · rw [List.map_cons, List.map_congr_left old]
    simpa [s'] using solo
  · rcases List.mem_cons.mp member with rfl | member
    · simpa [s'] using label
    · rw [old held member]
      change (m'.buf _).addr = _
      rw [kept _ fun same => loose (same ▸ List.mem_map_of_mem member)]
      exact holding.label held member

/-- `brelse` of a block that is pinned or whose disk is up to date. -/
theorem brelse {r : Reg} {a : BlockAddr}
    (holding : Holding pid content weight referenced ((r, a) :: regs) s)
    (kept : a ∈ referenced ∨ s.layer.disk a = content a) :
    ∃ s', Does pid s (Log.brelse r) [] s' ∧ s'.log = s.log ∧
      Holding pid content weight referenced regs s' := by
  have member : s.regs r ∈ ((r, a) :: regs).map fun held => s.regs held.1 := by simp
  have label : (s.layer.buf (s.regs r)).addr = a := holding.label (r, a) List.mem_cons_self
  have agrees : (s.layer.buf (s.regs r)).addr ∈ referenced ∨
      s.layer.disk (s.layer.buf (s.regs r)).addr = (s.layer.buf (s.regs r)).data := by
    rw [holding.solo.data member, label]
    exact kept
  obtain ⟨m', released, solo, other, disk, writes⟩ := holding.solo.brelse member agrees
  refine ⟨s.withLayer m', ⟨?_, disk, by simpa [withLayer] using writes⟩, rfl, ⟨?_, ?_⟩⟩
  · simp only [BlockLayer.brelse, BlockLayer.releasesleep, holding.solo.holdingsleep member,
      if_true, bind, Except.bind, pure, Except.pure, Except.ok.injEq] at released
    simp only [Log.brelse, exec, step, BlockLayer.releasesleep, holding.solo.holdingsleep member,
      if_true, bind, Except.bind, pure, Except.pure, Functor.map, Except.map, withLayer, released]
  · simpa [withLayer] using solo
  · intro held place
    have nodup := holding.solo.nodup
    rw [List.map_cons, List.nodup_cons] at nodup
    change (m'.buf (s.regs held.1)).addr = held.2
    rw [other _ fun same => nodup.1 (same ▸ List.mem_map_of_mem place)]
    exact holding.label held (List.mem_cons_of_mem _ place)

/-- A store into a held buffer and the `bwrite` of it. -/
private theorem store (holding : Holding pid content weight referenced regs s) {r : Reg}
    {a : BlockAddr} (member : (r, a) ∈ regs) (instr : Instr) (data : Block)
    (step : s.step pid instr = .ok (s.withLayer (s.layer.setData (s.regs r) data))) :
    ∃ s', Does pid s [instr, .bwrite r] [(a, data)] s' ∧ s'.log = s.log ∧
      Holding pid (Function.update content a data) weight referenced regs s' := by
  have held : s.regs r ∈ regs.map fun held => s.regs held.1 :=
    List.mem_map_of_mem (f := fun held : Reg × BlockAddr => s.regs held.1) member
  have label : (s.layer.buf (s.regs r)).addr = a := holding.label _ member
  let stored := s.layer.setData (s.regs r) data
  have solo := holding.solo.setData held data
  rw [label] at solo
  have wrote := solo.bwrite held
  have same : ∀ j, (stored.buf j).addr = (s.layer.buf j).addr := fun j =>
    BlockLayer.update_addr _ _ j rfl
  have own : (stored.buf (s.regs r)).data = data := by simp [stored, BlockLayer.setData]
  have ownLabel : (stored.buf (s.regs r)).addr = a := (same _).trans label
  refine ⟨s.withLayer (stored.virtioDiskRw (s.regs r) true), ⟨?_, ?_, ?_⟩, rfl, ⟨wrote.2, ?_⟩⟩
  · rw [exec, step]
    simp only [exec, LogState.step, withLayer, wrote.1, bind, Except.bind, Functor.map,
      Except.map, stored]
  · simp only [withLayer, BlockLayer.virtioDiskRw, if_true, replay_cons, replay_nil, own, ownLabel]
    rfl
  · simp only [withLayer, BlockLayer.virtioDiskRw, if_true, own, ownLabel]
    rfl
  · exact fun held member => (same _).trans (holding.label held member)

/-- `memmove(dst->data, src->data, BSIZE)` and `bwrite(dst)`. -/
theorem copy (holding : Holding pid content weight referenced regs s) (dst src : Reg)
    {a b : BlockAddr} (dstHeld : (dst, a) ∈ regs) (srcHeld : (src, b) ∈ regs) :
    ∃ s', Does pid s [.memmove dst src, .bwrite dst] [(a, content b)] s' ∧ s'.log = s.log ∧
      Holding pid (Function.update content a (content b)) weight referenced regs s' := by
  have held : s.regs src ∈ regs.map fun held => s.regs held.1 :=
    List.mem_map_of_mem (f := fun held : Reg × BlockAddr => s.regs held.1) srcHeld
  have data : (s.layer.buf (s.regs src)).data = content b := by
    rw [holding.solo.data held, holding.label _ srcHeld]
  exact holding.store dstHeld (.memmove dst src) (content b) (by rw [← data]; rfl)

/-- `bunpin` changes the layer alone. -/
private theorem does_bunpin (r : Reg) :
    Does pid s [.bunpin r] [] (s.withLayer (s.layer.bunpin (s.regs r))) :=
  ⟨rfl, rfl, by simp [withLayer, BlockLayer.bunpin]⟩

/-- `bunpin` of a pinned block. -/
theorem bunpin (holding : Holding pid content 1 referenced regs s) {r : Reg} {a : BlockAddr}
    (member : (r, a) ∈ regs) (pinned : a ∈ referenced) (nodup : referenced.Nodup) :
    Holding pid content 1 (referenced.erase a) regs
      (s.withLayer (s.layer.bunpin (s.regs r))) := by
  have label : (s.layer.buf (s.regs r)).addr = a := holding.label _ member
  have held : s.regs r ∈ regs.map fun held => s.regs held.1 :=
    List.mem_map_of_mem (f := fun held : Reg × BlockAddr => s.regs held.1) member
  have solo := holding.solo.bunpin held (label ▸ pinned) nodup
  rw [label] at solo
  exact ⟨solo, fun held member =>
    (BlockLayer.update_addr _ _ _ rfl).trans (holding.label held member)⟩

/-- `bunpin` of a block that was never pinned. -/
theorem bunpin_unpinned (holding : Holding pid content (-1) referenced regs s) {r : Reg}
    {a : BlockAddr} (member : (r, a) ∈ regs) (fresh : a ∉ referenced) :
    Holding pid content (-1) (a :: referenced) regs
      (s.withLayer (s.layer.bunpin (s.regs r))) := by
  have label : (s.layer.buf (s.regs r)).addr = a := holding.label _ member
  have held : s.regs r ∈ regs.map fun held => s.regs held.1 :=
    List.mem_map_of_mem (f := fun held : Reg × BlockAddr => s.regs held.1) member
  have solo := holding.solo.bunpin_unpinned held (label ▸ fresh)
  rw [label] at solo
  exact ⟨solo, fun held member =>
    (BlockLayer.update_addr _ _ _ rfl).trans (holding.label held member)⟩

/-- The disk is up to date for a block that nobody holds or pins. -/
theorem settled (holding : Holding pid content weight referenced [] s) {a : BlockAddr}
    (fresh : a ∉ referenced) : s.layer.disk a = content a :=
  holding.solo.settled fresh (by simp)

/-- One round of `write_log`, for a block that is pinned. -/
theorem writeLogBody (holding : Holding pid content weight referenced [] s) (tail : Nat)
    (pinned : s.log.homeAddr tail ∈ referenced) (fresh : s.log.slotAddr tail ∉ referenced)
    (room : referenced.length < NBUF) :
    ∃ s', Does pid s (s.log.writeLogBody tail)
        [(s.log.slotAddr tail, content (s.log.homeAddr tail))] s' ∧ s'.log = s.log ∧
      Holding pid (Function.update content (s.log.slotAddr tail)
        (content (s.log.homeAddr tail))) weight referenced [] s' := by
  have apart : s.log.slotAddr tail ≠ s.log.homeAddr tail := fun same => fresh (same ▸ pinned)
  obtain ⟨s₁, does₁, log₁, holding₁⟩ := holding.bread .to (s.log.start + tail + 1)
    (by simp) (by simp) (.inl (by simpa using room))
  obtain ⟨s₂, does₂, log₂, holding₂⟩ := holding₁.bread .from (s.log.lh.block tail) (by simp)
    (fun held member => by
      rw [List.mem_singleton.mp member, log₁]
      exact ⟨apart, fresh⟩)
    (by rw [log₁]; exact .inr pinned)
  rw [log₁] at holding₂ log₂
  obtain ⟨s₃, does₃, log₃, holding₃⟩ := holding₂.copy .to .from
    (a := s.log.slotAddr tail) (b := s.log.homeAddr tail)
    (by simp [Log.slotAddr]) (by simp [Log.homeAddr])
  obtain ⟨s₄, does₄, log₄, holding₄⟩ := holding₃.brelse (.inl pinned)
  have wrote := (does₁.append (does₂.append (does₃.append does₄))).2.1
  obtain ⟨s₅, does₅, log₅, holding₅⟩ := holding₄.brelse (.inr (by simp [wrote, Log.slotAddr]))
  refine ⟨s₅, ?_, by rw [log₅, log₄, log₃, log₂], holding₅⟩
  have := does₁.append (does₂.append (does₃.append (does₄.append does₅)))
  simpa [Log.writeLogBody] using this

/-- One round of `install_trans`. What its `bunpin` does to the count is the
premise `unpin`. -/
theorem installTransBody (holding : Holding pid content weight referenced [] s) (tail : Nat)
    (apart : s.log.slotAddr tail ≠ s.log.homeAddr tail)
    (fresh : s.log.slotAddr tail ∉ referenced)
    (room : referenced.length < NBUF ∧
      (referenced.length + 1 < NBUF ∨ s.log.homeAddr tail ∈ referenced))
    {referenced' : List BlockAddr}
    (unpin : ∀ {content regs s'}, Holding pid content weight referenced regs s' →
      (.dbuf, s.log.homeAddr tail) ∈ regs → Holding pid content weight referenced' regs
        (s'.withLayer (s'.layer.bunpin (s'.regs .dbuf)))) :
    ∃ s', Does pid s (s.log.installTransBody tail)
        [(s.log.homeAddr tail, content (s.log.slotAddr tail))] s' ∧ s'.log = s.log ∧
      Holding pid (Function.update content (s.log.homeAddr tail)
        (content (s.log.slotAddr tail))) weight referenced' [] s' := by
  have slotDisk := holding.settled fresh
  obtain ⟨s₁, does₁, log₁, holding₁⟩ := holding.bread .lbuf (s.log.start + tail + 1)
    (by simp) (by simp) (.inl (by simpa using room.1))
  obtain ⟨s₂, does₂, log₂, holding₂⟩ := holding₁.bread .dbuf (s.log.lh.block tail) (by simp)
    (fun held member => by
      rw [List.mem_singleton.mp member, log₁]
      exact ⟨apart, fresh⟩)
    (by rw [log₁]; exact room.2)
  rw [log₁] at holding₂ log₂
  obtain ⟨s₃, does₃, log₃, holding₃⟩ := holding₂.copy .dbuf .lbuf
    (a := s.log.homeAddr tail) (b := s.log.slotAddr tail)
    (by simp [Log.homeAddr]) (by simp [Log.slotAddr])
  have holding₄ := (unpin holding₃ (by simp [Log.homeAddr])).perm (List.Perm.swap _ _ _)
  have wrote₄ := (does₁.append (does₂.append (does₃.append (does_bunpin .dbuf)))).2.1
  obtain ⟨s₅, does₅, log₅, holding₅⟩ := holding₄.brelse (.inr (by
    rw [wrote₄]
    change Function.update s.layer.disk (s.log.homeAddr tail) _ (s.log.slotAddr tail) =
      Function.update content (s.log.homeAddr tail) _ (s.log.slotAddr tail)
    rw [Function.update_of_ne apart, Function.update_of_ne apart, slotDisk]))
  have wrote₅ :=
    (does₁.append (does₂.append (does₃.append ((does_bunpin .dbuf).append does₅)))).2.1
  obtain ⟨s₆, does₆, log₆, holding₆⟩ := holding₅.brelse (.inr (by simp [wrote₅, Log.homeAddr]))
  refine ⟨s₆, ?_, ?_, holding₆⟩
  · have := does₁.append (does₂.append (does₃.append ((does_bunpin .dbuf).append
      (does₅.append does₆))))
    simpa [Log.installTransBody] using this
  · rw [log₆, log₅]
    change s₃.log = s.log
    rw [log₃, log₂]

/-- `write_head` writes the in-memory header over the header block. -/
theorem writeHead (holding : Holding pid content weight referenced [] s)
    (room : referenced.length < NBUF) :
    ∃ s', Does pid s s.log.writeHead
        [(s.log.headAddr, s.log.lh.store (content s.log.headAddr))] s' ∧ s'.log = s.log ∧
      Holding pid (Function.update content s.log.headAddr
        (s.log.lh.store (content s.log.headAddr))) weight referenced [] s' := by
  obtain ⟨s₁, does₁, log₁, holding₁⟩ := holding.bread .buf s.log.start (by simp) (by simp)
    (.inl (by simpa using room))
  have held : s₁.regs .buf ∈ [(Reg.buf, s.log.headAddr)].map fun held => s₁.regs held.1 := by simp
  have data : (s₁.layer.buf (s₁.regs .buf)).data = content s.log.headAddr := by
    rw [holding₁.solo.data held, holding₁.label _ List.mem_cons_self]
    rfl
  obtain ⟨s₂, does₂, log₂, holding₂⟩ := holding₁.store List.mem_cons_self
    (.putHead .buf) (s.log.lh.store (content s.log.headAddr)) (by rw [← data, ← log₁]; rfl)
  have wrote := (does₁.append does₂).2.1
  obtain ⟨s₃, does₃, log₃, holding₃⟩ := holding₂.brelse (.inr (by simp [wrote, Log.headAddr]))
  refine ⟨s₃, ?_, by rw [log₃, log₂, log₁], holding₃⟩
  have := does₁.append (does₂.append does₃)
  simpa [Log.writeHead, Log.headAddr] using this

private theorem step_getHead (pid : Nat) {s : LogState} {r : Reg} {lh : Logheader}
    (load : s.log.lh.load (s.layer.buf (s.regs r)).data = .ok lh) :
    s.step pid (.getHead r) = .ok { s with log := { s.log with lh := lh } } := by
  rw [LogState.step, load]
  rfl

/-- `read_head` copies the header block into the in-memory header. -/
theorem readHead (holding : Holding pid content weight referenced [] s)
    (fresh : s.log.headAddr ∉ referenced) (room : referenced.length < NBUF) {lh : Logheader}
    (load : s.log.lh.load (content s.log.headAddr) = .ok lh) :
    ∃ s', Does pid s s.log.readHead [] s' ∧ s'.log = { s.log with lh := lh } ∧
      Holding pid content weight referenced [] s' := by
  obtain ⟨s₁, does₁, log₁, holding₁⟩ := holding.bread .buf s.log.start (by simp) (by simp)
    (.inl (by simpa using room))
  have held : s₁.regs .buf ∈ [(Reg.buf, s.log.headAddr)].map fun held => s₁.regs held.1 := by simp
  have data : (s₁.layer.buf (s₁.regs .buf)).data = content s.log.headAddr := by
    rw [holding₁.solo.data held, holding₁.label _ List.mem_cons_self]
    rfl
  have disk : s₁.layer.disk s.log.headAddr = content s.log.headAddr := by
    rw [does₁.2.1]
    exact holding.settled fresh
  have step := step_getHead pid (s := s₁) (r := .buf) (by rw [data, log₁]; exact load)
  have holding₂ : Holding pid content weight referenced [(.buf, s.log.headAddr)]
      { s₁ with log := { s₁.log with lh := lh } } := ⟨holding₁.solo, holding₁.label⟩
  obtain ⟨s₃, does₃, log₃, holding₃⟩ := holding₂.brelse (.inr disk)
  refine ⟨s₃, ?_, by rw [log₃, log₁], holding₃⟩
  exact does₁.append (does₃.cons step rfl rfl)

/-- `write_log` writes every pinned block of the header into its slot. -/
theorem writeLog (tails : List Nat) (holding : Holding pid content weight referenced [] s)
    (pinned : ∀ tail ∈ tails, s.log.homeAddr tail ∈ referenced)
    (fresh : ∀ tail ∈ tails, s.log.slotAddr tail ∉ referenced) (room : referenced.length < NBUF) :
    ∃ s', Does pid s (tails.flatMap s.log.writeLogBody)
        (tails.map fun tail => (s.log.slotAddr tail, content (s.log.homeAddr tail))) s' ∧
      s'.log = s.log ∧
      Holding pid (replay (tails.map fun tail =>
        (s.log.slotAddr tail, content (s.log.homeAddr tail))) content) weight referenced [] s' := by
  induction tails generalizing s content with
  | nil => exact ⟨s, Does.nil pid s, rfl, holding⟩
  | cons tail tails ih =>
      obtain ⟨s₁, does₁, log₁, holding₁⟩ := holding.writeLogBody tail
        (pinned tail List.mem_cons_self) (fresh tail List.mem_cons_self) room
      obtain ⟨s₂, does₂, log₂, holding₂⟩ := ih holding₁
        (fun later member => by rw [log₁]; exact pinned later (List.mem_cons_of_mem _ member))
        (fun later member => by rw [log₁]; exact fresh later (List.mem_cons_of_mem _ member))
      have same : (tails.map fun later => (s.log.slotAddr later,
          Function.update content (s.log.slotAddr tail) (content (s.log.homeAddr tail))
            (s.log.homeAddr later))) =
          tails.map fun later => (s.log.slotAddr later, content (s.log.homeAddr later)) := by
        refine List.map_congr_left fun later member => ?_
        have apart : s.log.homeAddr later ≠ s.log.slotAddr tail := fun equal =>
          fresh tail List.mem_cons_self (equal ▸ pinned later (List.mem_cons_of_mem _ member))
        rw [Function.update_of_ne apart]
      rw [log₁, same] at does₂ holding₂
      exact ⟨s₂, does₁.append does₂, log₂.trans log₁, holding₂⟩

section InstallTrans

variable {tail : Nat} {tails : List Nat}

/-- The writes of `install_trans` over some entries of the header. -/
private theorem installs_cons (log : Log)
    (apart : ∀ slot ∈ tail :: tails, ∀ home ∈ tail :: tails,
      log.slotAddr slot ≠ log.homeAddr home) :
    (tails.map fun later => (log.homeAddr later,
      Function.update content (log.homeAddr tail) (content (log.slotAddr tail))
        (log.slotAddr later))) =
      tails.map fun later => (log.homeAddr later, content (log.slotAddr later)) := by
  refine List.map_congr_left fun later member => ?_
  rw [Function.update_of_ne (apart later (List.mem_cons_of_mem _ member) tail List.mem_cons_self)]

/-- `install_trans` in a commit unpins every block it installs. -/
theorem installTrans_pinned (tails : List Nat)
    (holding : Holding pid content 1 (tails.map s.log.homeAddr) [] s)
    (distinct : (tails.map s.log.homeAddr).Nodup)
    (apart : ∀ slot ∈ tails, ∀ home ∈ tails, s.log.slotAddr slot ≠ s.log.homeAddr home)
    (room : tails.length < NBUF) :
    ∃ s', Does pid s (tails.flatMap s.log.installTransBody)
        (tails.map fun tail => (s.log.homeAddr tail, content (s.log.slotAddr tail))) s' ∧
      s'.log = s.log ∧
      Holding pid (replay (tails.map fun tail =>
        (s.log.homeAddr tail, content (s.log.slotAddr tail))) content) 1 [] [] s' := by
  induction tails generalizing s content with
  | nil => exact ⟨s, Does.nil pid s, rfl, holding⟩
  | cons tail tails ih =>
      obtain ⟨s₁, does₁, log₁, holding₁⟩ := holding.installTransBody tail
        (apart tail List.mem_cons_self tail List.mem_cons_self)
        (fun member => by
          obtain ⟨later, place, same⟩ := List.mem_map.mp member
          exact apart tail List.mem_cons_self later place same.symm)
        ⟨by simpa using room, .inr (by simp)⟩
        (fun holding member => by
          have := holding.bunpin member (by simp) distinct
          rwa [List.map_cons, List.erase_cons_head] at this)
      rw [← log₁] at holding₁
      obtain ⟨s₂, does₂, log₂, holding₂⟩ := ih holding₁
        (by rw [log₁]; exact (List.nodup_cons.mp distinct).2)
        (fun slot slotIn home homeIn => by
          rw [log₁]
          exact apart slot (List.mem_cons_of_mem _ slotIn) home (List.mem_cons_of_mem _ homeIn))
        (by simp only [List.length_cons] at room; omega)
      rw [log₁, installs_cons s.log apart] at does₂ holding₂
      exact ⟨s₂, does₁.append does₂, log₂.trans log₁, holding₂⟩

/-- `install_trans` in a recovery leaves the count of every block it installs
one short. -/
theorem installTrans_unpinned (tails : List Nat)
    (holding : Holding pid content (-1) referenced [] s)
    (distinct : (tails.map s.log.homeAddr).Nodup)
    (apart : ∀ slot ∈ tails, ∀ home ∈ tails, s.log.slotAddr slot ≠ s.log.homeAddr home)
    (freshSlot : ∀ tail ∈ tails, s.log.slotAddr tail ∉ referenced)
    (freshHome : ∀ tail ∈ tails, s.log.homeAddr tail ∉ referenced)
    (room : referenced.length + tails.length < NBUF) :
    ∃ s', Does pid s (tails.flatMap s.log.installTransBody)
        (tails.map fun tail => (s.log.homeAddr tail, content (s.log.slotAddr tail))) s' ∧
      s'.log = s.log ∧
      Holding pid (replay (tails.map fun tail =>
        (s.log.homeAddr tail, content (s.log.slotAddr tail))) content) (-1)
        ((tails.map s.log.homeAddr).reverse ++ referenced) [] s' := by
  induction tails generalizing s content referenced with
  | nil => exact ⟨s, Does.nil pid s, rfl, by simpa using holding⟩
  | cons tail tails ih =>
      simp only [List.length_cons] at room
      obtain ⟨s₁, does₁, log₁, holding₁⟩ := holding.installTransBody tail
        (apart tail List.mem_cons_self tail List.mem_cons_self)
        (freshSlot tail List.mem_cons_self) ⟨by omega, .inl (by omega)⟩
        (fun holding member => holding.bunpin_unpinned member (freshHome tail List.mem_cons_self))
      rw [List.map_cons, List.nodup_cons] at distinct
      obtain ⟨s₂, does₂, log₂, holding₂⟩ := ih holding₁ (by rw [log₁]; exact distinct.2)
        (fun slot slotIn home homeIn => by
          rw [log₁]
          exact apart slot (List.mem_cons_of_mem _ slotIn) home (List.mem_cons_of_mem _ homeIn))
        (fun later member => by
          rw [log₁, List.mem_cons, not_or]
          exact ⟨apart later (List.mem_cons_of_mem _ member) tail List.mem_cons_self,
            freshSlot later (List.mem_cons_of_mem _ member)⟩)
        (fun later member => by
          rw [log₁, List.mem_cons, not_or]
          exact ⟨fun same => distinct.1 (same ▸ List.mem_map_of_mem member),
            freshHome later (List.mem_cons_of_mem _ member)⟩)
        (by simp only [List.length_cons]; omega)
      rw [log₁, installs_cons s.log apart] at does₂ holding₂
      refine ⟨s₂, does₁.append does₂, log₂.trans log₁, ?_⟩
      simpa using holding₂

end InstallTrans

/-- With nothing referenced the disks are up to date. -/
theorem disk_eq (holding : Holding pid content weight [] [] s) : s.layer.disk = content :=
  funext fun _ => holding.settled List.not_mem_nil

end Holding

/-- The in-memory header lists different home blocks of the log's disk, fewer
than there are buffers. -/
structure Listed (log : Log) : Prop where
  nonneg : 0 ≤ log.lh.n
  small : log.lh.n < LOGSIZE
  fits : log.lh.n < log.size
  number : ∀ i < log.lh.n.toNat, log.lh.block i < 2 ^ 32
  home : ∀ i < log.lh.n.toNat, (redoLog log.dev log.start log.size).IsHome (log.homeAddr i)
  distinct : ((List.range log.lh.n.toNat).map log.homeAddr).Nodup

namespace Listed

variable {log : Log}

theorem count_store (listed : Listed log) (b : Block) :
    (redoLog log.dev log.start log.size).count (log.lh.store b) = log.lh.n.toNat := by
  have stored := Logheader.headN_store listed.nonneg (le_of_lt listed.small) b
  simp only [redoLog, stored]

theorem entry_store (listed : Listed log) (b : Block) {i : Nat} (small : i < log.lh.n.toNat) :
    (redoLog log.dev log.start log.size).entry (log.lh.store b) i = log.homeAddr i := by
  have := Logheader.word_store (le_of_lt listed.small) b (i := i) (by omega) (listed.number i small)
  simp only [redoLog, Log.homeAddr, this]

/-- The stored header is well formed. -/
theorem wellFormed (listed : Listed log) (b : Block) :
    (redoLog log.dev log.start log.size).WellFormed (log.lh.store b) := by
  have count := listed.count_store b
  refine ⟨?_, fun i small => ?_, fun i small j small' same => ?_⟩
  · have := listed.fits
    have := listed.nonneg
    rw [count]
    simp only [redoLog]
    omega
  · rw [count] at small
    rw [listed.entry_store b small]
    exact listed.home i small
  · rw [count] at small small'
    rw [listed.entry_store b small, listed.entry_store b small'] at same
    exact List.inj_on_of_nodup_map listed.distinct (List.mem_range.mpr small)
      (List.mem_range.mpr small') same

/-- The writes of a commit of the listed blocks. -/
theorem commitWrites_eq (listed : Listed log) (b empty : Block) (content : Disk) :
    (redoLog log.dev log.start log.size).commitWrites (log.lh.store b) empty content =
      (List.range log.lh.n.toNat).map (fun i => (log.slotAddr i, content (log.homeAddr i))) ++
        ([(log.headAddr, log.lh.store b)] ++
          ((List.range log.lh.n.toNat).map (fun i => (log.homeAddr i, content (log.homeAddr i))) ++
            [(log.headAddr, empty)])) := by
  have entry : ∀ i ∈ List.range log.lh.n.toNat,
      (redoLog log.dev log.start log.size).entry (log.lh.store b) i = log.homeAddr i :=
    fun i small => listed.entry_store b (List.mem_range.mp small)
  have slots : (List.range log.lh.n.toNat).map (fun i =>
      (log.slotAddr i, content ((redoLog log.dev log.start log.size).entry (log.lh.store b) i))) =
      (List.range log.lh.n.toNat).map fun i => (log.slotAddr i, content (log.homeAddr i)) :=
    List.map_congr_left fun i small => by rw [entry i small]
  have homes : (List.range log.lh.n.toNat).map (fun i =>
      ((redoLog log.dev log.start log.size).entry (log.lh.store b) i,
        content ((redoLog log.dev log.start log.size).entry (log.lh.store b) i))) =
      (List.range log.lh.n.toNat).map fun i => (log.homeAddr i, content (log.homeAddr i)) :=
    List.map_congr_left fun i small => by rw [entry i small]
  rw [RedoLog.commitWrites, RedoLog.slotWrites, listed.count_store, homes, ← slots]
  rfl

theorem slot_ne_home (listed : Listed log) {i j : Nat} (small : i < log.lh.n.toNat)
    (small' : j < log.lh.n.toNat) : log.slotAddr i ≠ log.homeAddr j := by
  have := listed.fits
  exact ((listed.home j small').2 i (by simp only [redoLog]; omega)).symm

end Listed

namespace Holding

/-- `log[dev].lh.n = 0` and `write_head` erase the log on the disk. -/
theorem clear (holding : Holding pid content weight referenced [] s)
    (room : referenced.length < NBUF) :
    ∃ b content' s', Does pid s (.clear :: s.log.writeHead)
        [(s.log.headAddr, Logheader.store { s.log.lh with n := 0 } b)] s' ∧
      s'.log = { s.log with lh := { s.log.lh with n := 0 } } ∧
      Holding pid content' weight referenced [] s' := by
  let cleared : LogState := { s with log := { s.log with lh := { s.log.lh with n := 0 } } }
  have holding' : Holding pid content weight referenced [] cleared := ⟨holding.solo, holding.label⟩
  obtain ⟨s', does, log, after⟩ := holding'.writeHead room
  exact ⟨_, _, s', does.cons rfl rfl rfl, log, after⟩

/-- The copies of the logged blocks that `install_trans` reads. -/
private theorem slot_content (log : Log) (content : Disk) (head : Block) {i : Nat}
    {tails : List Nat} (member : i ∈ tails) :
    Function.update (replay (tails.map fun tail =>
      (log.slotAddr tail, content (log.homeAddr tail))) content) log.headAddr head
        (log.slotAddr i) = content (log.homeAddr i) := by
  have apart : log.slotAddr i ≠ log.headAddr :=
    (redoLog log.dev log.start log.size).slot_ne_header i
  rw [Function.update_of_ne apart]
  refine replay_of_mem content (List.mem_map.mpr ⟨i, member, rfl⟩) fun write place same => ?_
  obtain ⟨j, _, rfl⟩ := List.mem_map.mp place
  rw [(redoLog log.dev log.start log.size).slot_injective same]

/-- A commit of pinned blocks carries out the writes of a redo log's commit and
leaves nothing pinned. -/
theorem commit (listed : Listed s.log) (positive : 0 < s.log.lh.n)
    (holding : Holding pid content 1 ((List.range s.log.lh.n.toNat).map s.log.homeAddr) [] s) :
    ∃ b b' s', Does pid s s.log.commit
        ((redoLog s.log.dev s.log.start s.log.size).commitWrites (s.log.lh.store b)
          (Logheader.store { s.log.lh with n := 0 } b') content) s' ∧
      s'.log = { s.log with lh := { s.log.lh with n := 0 } } ∧
      Holding pid s'.layer.disk 1 [] [] s' := by
  have few : ((List.range s.log.lh.n.toNat).map s.log.homeAddr).length < NBUF := by
    have := listed.small
    have : LOGSIZE = NBUF := rfl
    simp only [List.length_map, List.length_range]
    omega
  have slots : ∀ i ∈ List.range s.log.lh.n.toNat, ∀ j ∈ List.range s.log.lh.n.toNat,
      s.log.slotAddr i ≠ s.log.homeAddr j := fun i small j small' =>
    listed.slot_ne_home (List.mem_range.mp small) (List.mem_range.mp small')
  -- the blocks go to their slots, the header to the disk, then the blocks go home
  obtain ⟨s₁, does₁, log₁, holding₁⟩ := holding.writeLog (List.range s.log.lh.n.toNat)
    (fun i small => List.mem_map_of_mem small)
    (fun i small member => by
      obtain ⟨j, small', same⟩ := List.mem_map.mp member
      exact slots i small j small' same.symm) few
  obtain ⟨s₂, does₂, log₂, holding₂⟩ := holding₁.writeHead few
  rw [log₁] at does₂ holding₂ log₂
  have homes : (List.range s.log.lh.n.toNat).map s.log.homeAddr =
      (List.range s.log.lh.n.toNat).map s₂.log.homeAddr := by rw [log₂]
  rw [homes] at holding₂
  obtain ⟨s₃, does₃, log₃, holding₃⟩ := holding₂.installTrans_pinned
    (List.range s.log.lh.n.toNat) (by rw [log₂]; exact listed.distinct)
    (by rw [log₂]; exact slots) (by simpa using few)
  rw [log₂, List.map_congr_left fun i small => by
    rw [slot_content s.log content _ small]] at does₃
  -- the header is erased
  obtain ⟨b', _, s₄, does₄, log₄, holding₄⟩ := holding₃.clear (by simp [NBUF, MAXOPBLOCKS])
  rw [log₃, log₂] at does₄ log₄
  have whole := does₁.append (does₂.append (does₃.append does₄))
  have code : s.log.commit = (List.range s.log.lh.n.toNat).flatMap s.log.writeLogBody ++
      (s.log.writeHead ++ ((List.range s.log.lh.n.toNat).flatMap s.log.installTransBody ++
        .clear :: s.log.writeHead)) := by
    rw [Log.commit, if_pos positive]
    simp [Log.writeLog, Log.installTrans]
  rw [← listed.commitWrites_eq, ← code] at whole
  exact ⟨_, b', s₄, whole, log₄, holding₄.disk_eq ▸ holding₄⟩

end Holding

/-- The state in which a machine that boots over `disk` runs `recover_from_log`. -/
def booted (dev logstart nlog : Nat) (disk : Disk) : LogState where
  layer := ⟨binit, disk, []⟩
  log := { start := logstart, size := nlog, dev := dev, lh := ⟨0, fun _ => 0⟩ }
  regs := fun _ => ⟨0, NBUF_pos⟩

theorem initlog_eq (pid dev logstart nlog : Nat) (disk : Disk) :
    initlog pid dev logstart nlog disk = recoverFromLog pid (booted dev logstart nlog disk) :=
  if_neg (by norm_num [LOGSIZE, MAXOPBLOCKS, BSIZE])

theorem booted_holding (pid dev logstart nlog : Nat) (disk : Disk) :
    Holding pid disk (-1) [] [] (booted dev logstart nlog disk) :=
  ⟨Solo.boot pid (by decide) disk [], by simp⟩

/-- A boot over a well-formed log carries out the writes of a redo log's
recovery. It leaves every block of the header referenced `-1` times. -/
theorem initlog_ok (pid : Nat) {dev logstart nlog : Nat} {disk : Disk}
    (room : (redoLog dev logstart nlog).count (disk ⟨dev, logstart⟩) < NBUF)
    (wellFormed : (redoLog dev logstart nlog).WellFormed (disk ⟨dev, logstart⟩)) :
    ∃ (lh : Logheader) (b : Block) (content : Disk) (st : LogState),
      initlog pid dev logstart nlog disk = .ok st ∧
      st.layer.writes = (redoLog dev logstart nlog).recoveryWrites disk
        (Logheader.store { lh with n := 0 } b) ∧
      st.layer.disk = replay st.layer.writes disk ∧
      st.log = { start := logstart, size := nlog, dev := dev, lh := { lh with n := 0 } } ∧
      Holding pid content (-1)
        ((List.range ((redoLog dev logstart nlog).count (disk ⟨dev, logstart⟩))).map
          ((redoLog dev logstart nlog).entry (disk ⟨dev, logstart⟩))).reverse [] st := by
  obtain ⟨head, isHead⟩ : ∃ head, disk ⟨dev, logstart⟩ = head := ⟨_, rfl⟩
  obtain ⟨n, isN⟩ : ∃ n, Logheader.headN head = n := ⟨_, rfl⟩
  rw [isHead] at wellFormed room ⊢
  have count : (redoLog dev logstart nlog).count head = n.toNat := by rw [redoLog_count, isN]
  have few : n.toNat ≤ nlog - 1 := count ▸ wellFormed.fits
  rw [count] at room
  let lh : Logheader := ⟨n, fun i => if (i : Int) < n then head.word (i + 1) else 0⟩
  have load : Logheader.load ⟨0, fun _ => 0⟩ head = .ok lh := by
    have : LOGSIZE = NBUF := rfl
    rw [Logheader.load, isN, if_neg (by omega)]
  obtain ⟨s₁, does₁, log₁, holding₁⟩ := (booted_holding pid dev logstart nlog disk).readHead
    List.not_mem_nil (by simp [NBUF, MAXOPBLOCKS]) (isHead ▸ load)
  let log : Log := { start := logstart, size := nlog, dev := dev, lh := lh }
  change s₁.log = log at log₁
  have entry : ∀ i ∈ List.range n.toNat, log.homeAddr i = (redoLog dev logstart nlog).entry head i := by
    intro i member
    have : (i : Int) < n := by
      have := List.mem_range.mp member
      omega
    simp [log, lh, Log.homeAddr, redoLog, this]
  have homes : (List.range n.toNat).map log.homeAddr =
      (List.range n.toNat).map ((redoLog dev logstart nlog).entry head) :=
    List.map_congr_left entry
  obtain ⟨s₂, does₂, log₂, holding₂⟩ := holding₁.installTrans_unpinned (List.range n.toNat)
    (by
      rw [log₁, homes]
      exact List.Nodup.map_on (fun i small j small' same =>
        wellFormed.distinct i (count ▸ List.mem_range.mp small) j
          (count ▸ List.mem_range.mp small') same) List.nodup_range)
    (fun i small j small' => by
      rw [log₁, entry j small']
      exact ((wellFormed.home j (count ▸ List.mem_range.mp small')).2 i
        (lt_of_lt_of_le (List.mem_range.mp small) few)).symm)
    (by simp) (by simp) (by simpa using room)
  obtain ⟨b, content, s₃, does₃, log₃, holding₃⟩ := holding₂.clear (by simpa using room)
  rw [log₂.trans log₁] at does₃ log₃
  rw [log₁] at does₂ holding₃
  have installs : ((List.range n.toNat).map fun i => (log.homeAddr i, disk (log.slotAddr i))) =
      (List.range n.toNat).map fun i =>
        ((redoLog dev logstart nlog).entry head i, disk ((redoLog dev logstart nlog).slot i)) :=
    List.map_congr_left fun i small => by rw [entry i small]; rfl
  have whole := (does₁.append does₂).append does₃
  have writes : s₃.layer.writes = (redoLog dev logstart nlog).recoveryWrites disk
      (Logheader.store { lh with n := 0 } b) := by
    rw [whole.2.2, installs, RedoLog.recoveryWrites, redoLog_header, isHead, count]
    rfl
  refine ⟨lh, b, content, s₃, ?_, writes, ?_, log₃, ?_⟩
  · rw [initlog_eq, recoverFromLog, does₁.1]
    change (exec pid s₁.log.installTrans s₁ >>= _) = _
    rw [log₁]
    change (exec pid ((List.range n.toNat).flatMap log.installTransBody) s₁ >>= _) = _
    rw [does₂.1]
    change exec pid (.clear :: s₂.log.writeHead) s₂ = _
    rw [log₂.trans log₁]
    exact does₃.1
  · rw [whole.2.1, whole.2.2]
    rfl
  · rwa [List.append_nil, homes, ← count] at holding₃

end LogState

end Riscv2os.Xv7
