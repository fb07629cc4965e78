import Riscv2os.Xv7.Bio

/-!
# The redo log of `log.c`

The functions that commit and recover are straight-line sequences of calls of
the block layer once the header is known, so each is given as the list of its
`Instr`s, one for every critical section, in the order of the C code. `exec`
runs such a list alone; `Riscv2os.Xv7.LogSystem` interleaves it with other
processes. All definitions are about the log of one disk, `log[dev]`.
-/

namespace Riscv2os.Xv7

open Riscv2os.Std

/-- Contents of the header block: the number of logged blocks and their home
locations. -/
structure Logheader where
  n : Int
  block : Nat → Nat

namespace Logheader

/-- The logged blocks. -/
def blocks (lh : Logheader) : List Nat := (List.range lh.n.toNat).map lh.block

/-- The `n` field of a header block. -/
def headN (b : Block) : Int := b.int 0

/-- Copy the header on disk into the in-memory header. The array `block` has
`LOGSIZE` entries. -/
def load (lh : Logheader) (b : Block) : Except Fault Logheader :=
  if headN b > LOGSIZE then .error .outOfBounds
  else .ok {
    n := headN b
    block := fun i => if (i : Int) < headN b then b.word (i + 1) else lh.block i }

/-- Copy the in-memory header into a header block, of which the words that
follow the last entry stay as they are. -/
def store (lh : Logheader) (b : Block) : Block :=
  (List.range lh.n.toNat).foldl (fun b i => b.setWord (i + 1) (lh.block i))
    (b.setWord 0 (lh.n % 2 ^ 32).toNat)

end Logheader

/-- The in-memory log of one disk. -/
structure Log where
  start : Nat
  size : Nat
  outstanding : Int := 0
  committing : Bool := false
  dev : Nat
  lh : Logheader

/-- The local variables of the functions of `log.c` that hold buffers. -/
inductive Reg where
  | buf | lbuf | dbuf | to | «from»
deriving DecidableEq, Repr

/-- One critical section of the code that commits or recovers. -/
inductive Instr where
  | bget (r : Reg) (blockno : Nat)
  | acquiresleep (r : Reg)
  | fill (r : Reg)
  /-- `memmove(dst->data, src->data, BSIZE)` -/
  | memmove (dst src : Reg)
  /-- Copy `r->data` into `log[dev].lh`. -/
  | getHead (r : Reg)
  /-- Copy `log[dev].lh` into `r->data`. -/
  | putHead (r : Reg)
  | bwrite (r : Reg)
  | bunpin (r : Reg)
  | releasesleep (r : Reg)
  | drop (r : Reg)
  /-- `log[dev].lh.n = 0` -/
  | clear
deriving DecidableEq, Repr

namespace Log

/-- The header block. -/
def headAddr (log : Log) : BlockAddr := ⟨log.dev, log.start⟩

/-- The log block of an entry of the header. -/
def slotAddr (log : Log) (tail : Nat) : BlockAddr := ⟨log.dev, log.start + tail + 1⟩

/-- The home location of an entry of the header. -/
def homeAddr (log : Log) (tail : Nat) : BlockAddr := ⟨log.dev, log.lh.block tail⟩

/-- `r = bread(dev, blockno)`. -/
def bread (r : Reg) (blockno : Nat) : List Instr :=
  [.bget r blockno, .acquiresleep r, .fill r]

/-- `brelse(r)`. -/
def brelse (r : Reg) : List Instr := [.releasesleep r, .drop r]

/-- The loop body of `install_trans`. -/
def installTransBody (log : Log) (tail : Nat) : List Instr :=
  bread .lbuf (log.start + tail + 1) ++ (bread .dbuf (log.lh.block tail) ++
    ([.memmove .dbuf .lbuf, .bwrite .dbuf] ++ (.bunpin .dbuf :: (brelse .lbuf ++ brelse .dbuf))))

/-- Copy committed blocks from log to their home location. -/
def installTrans (log : Log) : List Instr :=
  (List.range log.lh.n.toNat).flatMap log.installTransBody

/-- Read the log header from disk into the in-memory log header. -/
def readHead (log : Log) : List Instr :=
  bread .buf log.start ++ (.getHead .buf :: brelse .buf)

/-- Write in-memory log header to disk. -/
def writeHead (log : Log) : List Instr :=
  bread .buf log.start ++ (.putHead .buf :: .bwrite .buf :: brelse .buf)

/-- The loop body of `write_log`. -/
def writeLogBody (log : Log) (tail : Nat) : List Instr :=
  bread .to (log.start + tail + 1) ++ (bread .from (log.lh.block tail) ++
    ([.memmove .to .from, .bwrite .to] ++ (brelse .from ++ brelse .to)))

/-- Copy modified blocks from cache to log. -/
def writeLog (log : Log) : List Instr :=
  (List.range log.lh.n.toNat).flatMap log.writeLogBody

/-- The calls of `commit`. -/
def commit (log : Log) : List Instr :=
  if log.lh.n > 0 then
    log.writeLog ++ log.writeHead ++ log.installTrans ++ [.clear] ++ log.writeHead
  else []

/-- The condition under which `begin_op` does not sleep. -/
def admits (log : Log) : Bool :=
  !log.committing && decide (log.lh.n + (log.outstanding + 1) * MAXOPBLOCKS ≤ LOGSIZE)

/-- Called at the start of each FS system call. -/
def beginOp (log : Log) : Except Fault Log :=
  if log.admits then .ok { log with outstanding := log.outstanding + 1 } else .error .blocked

/-- The first critical section of `end_op`, and whether a commit follows. -/
def endOp (log : Log) : Except Fault (Log × Bool) :=
  let log := { log with outstanding := log.outstanding - 1 }
  if log.committing then .error (.panic "log[dev].committing")
  else if log.outstanding = 0 then .ok ({ log with committing := true }, true)
  else .ok (log, false)

/-- The checks with which `log_write` begins, outside the lock. -/
def checkWrite (log : Log) : Except Fault Unit :=
  if log.lh.n ≥ LOGSIZE ∨ log.lh.n ≥ (log.size : Int) - 1 then
    .error (.panic "too big a transaction")
  else if log.outstanding < 1 then .error (.panic "log_write outside of trans")
  else .ok ()

/-- The critical section of `log_write`, and whether it added a new block, which
it then pins. -/
def recordWrite (log : Log) (blockno : Nat) : Except Fault (Log × Bool) :=
  let n := log.lh.n.toNat
  let i := ((List.range n).find? fun i => log.lh.block i = blockno).getD n
  if i ≥ LOGSIZE then .error .outOfBounds
  else
    let lh := { log.lh with block := Function.update log.lh.block i blockno }
    if i = n then .ok ({ log with lh := { lh with n := lh.n + 1 } }, true)
    else .ok ({ log with lh := lh }, false)

end Log

/-- What one thread that executes `log.c` alone sees. -/
structure LogState where
  layer : BlockLayer
  log : Log
  regs : Reg → Fin NBUF

namespace LogState

/-- The state after the cache did something. -/
def withLayer (s : LogState) (layer : BlockLayer) : LogState := { s with layer := layer }

/-- One critical section, executed by a process with nobody else running. -/
def step (pid : Nat) (s : LogState) : Instr → Except Fault LogState
  | .bget r blockno => do
      let (i, layer) ← s.layer.bget s.log.dev blockno
      return { s with layer := layer, regs := Function.update s.regs r i }
  | .acquiresleep r => s.withLayer <$> s.layer.acquiresleep pid (s.regs r)
  | .fill r => return s.withLayer (s.layer.fill (s.regs r))
  | .memmove dst src =>
      return s.withLayer (s.layer.setData (s.regs dst) (s.layer.buf (s.regs src)).data)
  | .getHead r => do
      let lh ← s.log.lh.load (s.layer.buf (s.regs r)).data
      return { s with log := { s.log with lh := lh } }
  | .putHead r =>
      return s.withLayer
        (s.layer.setData (s.regs r) (s.log.lh.store (s.layer.buf (s.regs r)).data))
  | .bwrite r => s.withLayer <$> s.layer.bwrite pid (s.regs r)
  | .bunpin r => return s.withLayer (s.layer.bunpin (s.regs r))
  | .releasesleep r => s.withLayer <$> s.layer.releasesleep pid (s.regs r)
  | .drop r => return s.withLayer (s.layer.drop (s.regs r))
  | .clear => return { s with log := { s.log with lh := { s.log.lh with n := 0 } } }

/-- Execute a list of critical sections with nobody else running. -/
def exec (pid : Nat) : List Instr → LogState → Except Fault LogState
  | [], s => .ok s
  | instr :: code, s => do
      let s ← s.step pid instr
      exec pid code s

/-- Copy a committed transaction from the log to its home locations and clear
the log. -/
def recoverFromLog (pid : Nat) (s : LogState) : Except Fault LogState := do
  let s ← exec pid s.log.readHead s
  let s ← exec pid s.log.installTrans s
  exec pid (.clear :: s.log.writeHead) s

/-- `initlog(dev, sb)` of a machine that boots over `disk`: the cache is empty
and the log is that of `sb`. -/
def initlog (pid dev logstart nlog : Nat) (disk : Disk) : Except Fault LogState :=
  if 4 * (LOGSIZE + 1) ≥ BSIZE then .error (.panic "initlog: too big logheader")
  else recoverFromLog pid {
    layer := ⟨binit, disk, []⟩
    log := { start := logstart, size := nlog, dev := dev, lh := ⟨0, fun _ => 0⟩ }
    regs := fun _ => ⟨0, NBUF_pos⟩ }

/-- `bp = bread(dev, blockno)`, a change of `bp->data`, `log_write(bp)` and
`brelse(bp)`: one update of a file-system operation. -/
def update (pid : Nat) (s : LogState) (blockno : Nat) (change : Block → Block) :
    Except Fault LogState := do
  let (b, layer) ← s.layer.bread pid s.log.dev blockno
  let layer := layer.setData b (change (layer.buf b).data)
  s.log.checkWrite
  let (log, new) ← s.log.recordWrite (layer.buf b).blockno
  let layer := if new then layer.bpin b else layer
  let layer ← layer.brelse pid b
  return { s with layer := layer, log := log }

/-- `end_op` of the last outstanding operation, with its commit. -/
def endOp (pid : Nat) (s : LogState) : Except Fault LogState := do
  let (log, doCommit) ← s.log.endOp
  let s := { s with log := log }
  if doCommit then
    let s ← exec pid s.log.commit s
    return { s with log := { s.log with committing := false } }
  else return s

end LogState

end Riscv2os.Xv7
