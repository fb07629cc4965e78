import Riscv2os.Xv7.BioSystem
import Riscv2os.Xv7.Log

/-!
# The log among concurrent processes

The boot process recovers the log; afterwards any number of processes read and
change blocks, open and close operations, and the last one to close an operation
commits. Recovery and commit are threads that run the `Instr` lists of
`Riscv2os.Xv7.Log` one critical section at a time, by the same `LogState.step`
that runs them alone, with the other processes in between.
-/

namespace Riscv2os.Xv7

open Riscv2os.Std

/-- What a thread of `log.c` is doing. -/
inductive Stage where
  /-- `read_head` of a boot. -/
  | reading
  /-- The rest of `recover_from_log`. -/
  | recovering
  /-- `commit`. -/
  | committing
deriving DecidableEq, Repr

/-- A process inside `recover_from_log` or `commit`: what it still has to run,
and its local variables. -/
structure Thread where
  pid : Nat
  stage : Stage
  code : List Instr
  regs : Reg → Fin NBUF

/-- The number of a local variable among the slots of a process. -/
def Reg.slot : Reg → Nat
  | .buf => 0
  | .lbuf => 1
  | .dbuf => 2
  | .to => 3
  | .from => 4

/-- The slots of all local variables of `log.c` are below this one. -/
def Reg.slots : Nat := 5

/-- The block layer with its callers, the log, the processes that are between
`begin_op` and `end_op`, and the thread that recovers or commits. -/
structure LogSys where
  bio : BioState
  log : Log
  inOp : List Nat
  thread : Option Thread

namespace BioState

/-- The outstanding `bread` of a local variable. -/
def refAt (b : BioState) (pid slot : Nat) : Option Ref :=
  b.refs.find? fun r => r.pid = pid ∧ r.slot = slot

/-- The `bread` of a local variable moves on to another phase. -/
def move (b : BioState) (pid slot : Nat) (phase : Phase) (layer : BlockLayer) : BioState :=
  match b.refAt pid slot with
  | some r => b.advance r phase layer
  | none => { b with layer := layer }

/-- Record a store into a buffer. -/
def store (b : BioState) (i : Fin NBUF) (layer : BlockLayer) : BioState :=
  { b with
    layer := layer
    written := Function.update b.written (layer.buf i).addr (layer.buf i).data
    modified := insert i b.modified }

/-- The callers and pins after a critical section of a thread of process `pid`
that left the state `after`. -/
def track (b : BioState) (pid : Nat) (after : LogState) : Instr → BioState
  | .bget r blockno =>
      { b with
        layer := after.layer
        refs := ⟨pid, r.slot, after.log.dev, blockno, after.regs r, .waiting⟩ :: b.refs }
  | .acquiresleep r => b.move pid r.slot .filling after.layer
  | .fill r => b.move pid r.slot .holding after.layer
  | .memmove dst _ => b.store (after.regs dst) after.layer
  | .putHead r => b.store (after.regs r) after.layer
  | .bunpin r => { b with layer := after.layer, pins := b.pins.erase (after.regs r) }
  | .releasesleep r => b.move pid r.slot .leaving after.layer
  | .drop r =>
      match b.refAt pid r.slot with
      | some ref => { b with layer := after.layer, refs := b.refs.erase ref }
      | none => { b with layer := after.layer }
  | .bwrite r => { b with layer := after.layer, modified := b.modified.erase (after.regs r) }
  | .getHead _ | .clear => { b with layer := after.layer }

end BioState

/-- What processes do with the cache themselves. `bwrite`, `bpin` and `bunpin`
are called by `log.c` alone, and so are its own local variables. -/
def BioAct.Ordinary : BioAct → Prop
  | .bget _ slot _ _ => Reg.slots ≤ slot
  | .acquiresleep r | .fill r | .modify r _ | .releasesleep r | .drop r => Reg.slots ≤ r.slot
  | .bwrite _ | .bpin _ | .bunpin _ => False

namespace LogSys

/-- The state as the thread sees it. -/
def view (s : LogSys) (t : Thread) : LogState := ⟨s.bio.layer, s.log, t.regs⟩

/-- The boot is over. -/
def Up (s : LogSys) : Prop := ∀ t, s.thread = some t → t.stage = .committing

/-- The thread finishes the critical section `instr`. -/
def advance (s : LogSys) (t : Thread) (instr : Instr) (code : List Instr) (after : LogState) :
    LogSys :=
  { s with
    bio := s.bio.track t.pid after instr
    log := after.log
    thread := some { t with code := code, regs := after.regs } }

end LogSys

/-- The actions of the log system. -/
inductive LogAct where
  | process (act : BioAct)
  | beginOp (pid : Nat)
  | logWrite (r : Ref)
  | endOp (pid : Nat)
  | instr (instr : Instr)
  | recover
  | booted
  | committed

/-- One action of one process. The checks at the start of `log_write` are made
outside the lock, so that nothing is known of them any more when it gets to its
critical section, and they only ever stop the caller; the step leaves them out. -/
inductive LogStep : LogSys → LogAct → LogSys → Prop where
  | process {s act bio} (up : s.Up) (ordinary : act.Ordinary) (step : BioStep s.bio act bio) :
      LogStep s (.process act) { s with bio := bio }
  | beginOp {s pid log} (up : s.Up) (begun : s.log.beginOp = .ok log) :
      LogStep s (.beginOp pid) { s with log := log, inOp := pid :: s.inOp }
  | logWrite {s r log new} (up : s.Up) (member : r ∈ s.bio.refs) (phase : r.phase = .holding)
      (inOp : r.pid ∈ s.inOp) (dev : r.dev = s.log.dev)
      (recorded : s.log.recordWrite (s.bio.buf r.buf).blockno = .ok (log, new)) :
      LogStep s (.logWrite r)
        { s with
          bio := if new then
              { s.bio with layer := s.bio.layer.bpin r.buf, pins := r.buf :: s.bio.pins }
            else s.bio
          log := log }
  | endOp {s pid log doCommit} (inOp : pid ∈ s.inOp) (ended : s.log.endOp = .ok (log, doCommit)) :
      LogStep s (.endOp pid)
        { s with
          log := log
          inOp := s.inOp.erase pid
          thread := if doCommit then some ⟨pid, .committing, log.commit, fun _ => ⟨0, NBUF_pos⟩⟩
            else s.thread }
  | instr {s t instr code after} (thread : s.thread = some t) (next : t.code = instr :: code)
      (ran : (s.view t).step t.pid instr = .ok after) :
      LogStep s (.instr instr) (s.advance t instr code after)
  | recover {s t} (thread : s.thread = some t) (stage : t.stage = .reading) (done : t.code = []) :
      LogStep s .recover
        { s with thread := some { t with
            stage := .recovering
            code := s.log.installTrans ++ .clear :: s.log.writeHead } }
  | booted {s t} (thread : s.thread = some t) (stage : t.stage = .recovering)
      (done : t.code = []) : LogStep s .booted { s with thread := none }
  | committed {s t} (thread : s.thread = some t) (stage : t.stage = .committing)
      (done : t.code = []) :
      LogStep s .committed { s with log := { s.log with committing := false }, thread := none }

/-- The machine from the start of `initlog` on, over a disk of any content. -/
def logSystem (pid dev logstart nlog : Nat) (disk : Disk) : TransitionSystem LogSys LogAct where
  Initial s :=
    let log : Log := { start := logstart, size := nlog, dev := dev, lh := ⟨0, fun _ => 0⟩ }
    s = ⟨⟨⟨binit, disk, []⟩, [], [], disk, ∅⟩, log, [],
      some ⟨pid, .reading, log.readHead, fun _ => ⟨0, NBUF_pos⟩⟩⟩
  Step := LogStep

/-- The 32-bit counters have room for one more reference. -/
def LogRoom (s : LogSys) (_ : LogAct) : Prop :=
  s.bio.refs.length + s.bio.pins.length + 1 < 2 ^ 32

/-- A call of `bunpin`. -/
def Instr.isBunpin : Instr → Bool
  | .bunpin _ => true
  | _ => false

namespace LogSys

/-- The blocks that the running or committing transaction pins: those of the
header, without those that the commit has already unpinned. -/
def pinned (s : LogSys) : List BlockAddr :=
  let blocks := s.log.lh.blocks.map fun blockno => ⟨s.log.dev, blockno⟩
  match s.thread with
  | none => blocks
  | some t =>
      match t.stage with
      | .committing => blocks.drop (blocks.length - t.code.countP Instr.isBunpin)
      | .reading | .recovering => []

/-- Every `refcnt` is the number of outstanding `bread`s of the buffer, plus one
if the transaction pins the block that the buffer has. -/
def Accounted (s : LogSys) : Prop :=
  ∀ i, (s.bio.buf i).refcnt.toNat = s.bio.refs.countP (fun r => r.buf = i) +
    if (s.bio.buf i).valid = true ∧ (s.bio.buf i).addr ∈ s.pinned then 1 else 0

end LogSys

end Riscv2os.Xv7
