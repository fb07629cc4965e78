import Riscv2os.Std.TransitionSystem
import Riscv2os.Xv7.Bio

/-!
# Concurrent callers of the buffer cache

Any number of processes run the critical sections of `bio.c` interleaved. A
`Ref` is one outstanding `bread`: it exists from the critical section of `bget`
to the critical section of `brelse`, and says in which local variable of which
process the buffer sits. `pins` are the `bpin`s not yet undone.
-/

namespace Riscv2os.Xv7

open Riscv2os.Std

/-- How far a caller of `bread` and `brelse` has come. -/
inductive Phase where
  /-- In `bget`, before `acquiresleep` returned. -/
  | waiting
  /-- In `bread`, with the sleeplock, before the data is known to be valid. -/
  | filling
  /-- `bread` has returned. -/
  | holding
  /-- In `brelse`, after `releasesleep`. -/
  | leaving
deriving DecidableEq, Repr

/-- The phases in which the caller has the sleeplock. -/
def Phase.locked : Phase → Bool
  | .filling | .holding => true
  | .waiting | .leaving => false

/-- The phases that follow the filling of the buffer. -/
def Phase.filled : Phase → Bool
  | .holding | .leaving => true
  | .waiting | .filling => false

/-- One outstanding `bread`. -/
structure Ref where
  pid : Nat
  slot : Nat
  dev : Nat
  blockno : Nat
  buf : Fin NBUF
  phase : Phase
deriving DecidableEq

/-- The block the caller asked for. -/
def Ref.addr (r : Ref) : BlockAddr := ⟨r.dev, r.blockno⟩

/-- The same call in another phase. -/
def Ref.at (r : Ref) (phase : Phase) : Ref := { r with phase := phase }

@[simp] theorem Ref.at_pid (r : Ref) (phase : Phase) : (r.at phase).pid = r.pid := rfl
@[simp] theorem Ref.at_slot (r : Ref) (phase : Phase) : (r.at phase).slot = r.slot := rfl
@[simp] theorem Ref.at_buf (r : Ref) (phase : Phase) : (r.at phase).buf = r.buf := rfl
@[simp] theorem Ref.at_addr (r : Ref) (phase : Phase) : (r.at phase).addr = r.addr := rfl
@[simp] theorem Ref.at_phase (r : Ref) (phase : Phase) : (r.at phase).phase = phase := rfl

/-- The block layer with its callers. `written` records the content last
written to each block through the cache, and `modified` the buffers that a caller
has changed and for which `bwrite` has not been called since. -/
structure BioState where
  layer : BlockLayer
  refs : List Ref
  pins : List (Fin NBUF)
  written : Disk
  modified : Finset (Fin NBUF)

/-- The atomic actions of the callers. -/
inductive BioAct where
  | bget (pid slot dev blockno : Nat)
  | acquiresleep (r : Ref)
  | fill (r : Ref)
  | modify (r : Ref) (data : Block)
  | bwrite (r : Ref)
  | releasesleep (r : Ref)
  | drop (r : Ref)
  | bpin (r : Ref)
  | bunpin (i : Fin NBUF)

namespace BioState

/-- The buffer at an index of the array. -/
abbrev buf (s : BioState) (i : Fin NBUF) : Buf := s.layer.buf i

/-- Number of outstanding references to a buffer. -/
def outstanding (s : BioState) (i : Fin NBUF) : Nat :=
  s.refs.countP (fun r => r.buf = i) + s.pins.count i

/-- A call moves on to another phase. -/
def advance (s : BioState) (r : Ref) (phase : Phase) (layer : BlockLayer) : BioState :=
  { s with layer := layer, refs := r.at phase :: s.refs.erase r }

end BioState

/-- One action of one caller. A caller uses a local variable for one buffer at
a time, acts on what it acquired, and undoes the pins it made. -/
inductive BioStep : BioState → BioAct → BioState → Prop where
  | bget {s pid slot dev blockno i layer}
      (unused : ∀ r ∈ s.refs, ¬ (r.pid = pid ∧ r.slot = slot))
      (got : s.layer.bget dev blockno = .ok (i, layer)) :
      BioStep s (.bget pid slot dev blockno)
        { s with layer := layer, refs := ⟨pid, slot, dev, blockno, i, .waiting⟩ :: s.refs }
  | acquiresleep {s r layer} (member : r ∈ s.refs) (phase : r.phase = .waiting)
      (acquired : s.layer.acquiresleep r.pid r.buf = .ok layer) :
      BioStep s (.acquiresleep r) (s.advance r .filling layer)
  | fill {s r} (member : r ∈ s.refs) (phase : r.phase = .filling) :
      BioStep s (.fill r) (s.advance r .holding (s.layer.fill r.buf))
  | modify {s r data} (member : r ∈ s.refs) (phase : r.phase = .holding) :
      BioStep s (.modify r data)
        { s with
          layer := s.layer.setData r.buf data
          written := Function.update s.written r.addr data
          modified := insert r.buf s.modified }
  | bwrite {s r layer} (member : r ∈ s.refs) (phase : r.phase = .holding)
      (wrote : s.layer.bwrite r.pid r.buf = .ok layer) :
      BioStep s (.bwrite r) { s with layer := layer, modified := s.modified.erase r.buf }
  | releasesleep {s r layer} (member : r ∈ s.refs) (phase : r.phase = .holding)
      (released : s.layer.releasesleep r.pid r.buf = .ok layer) :
      BioStep s (.releasesleep r) (s.advance r .leaving layer)
  | drop {s r} (member : r ∈ s.refs) (phase : r.phase = .leaving) :
      BioStep s (.drop r) { s with layer := s.layer.drop r.buf, refs := s.refs.erase r }
  | bpin {s r} (member : r ∈ s.refs) (phase : r.phase = .holding) :
      BioStep s (.bpin r) { s with layer := s.layer.bpin r.buf, pins := r.buf :: s.pins }
  | bunpin {s i} (member : i ∈ s.pins) :
      BioStep s (.bunpin i) { s with layer := s.layer.bunpin i, pins := s.pins.erase i }

/-- The cache from `binit` on, over disks of any content. -/
def bioSystem : TransitionSystem BioState BioAct where
  Initial s := s.layer.bcache = binit ∧ s.refs = [] ∧ s.pins = [] ∧ s.written = s.layer.disk ∧
    s.modified = ∅
  Step := BioStep

/-- The 32-bit counters have room for one more reference. The kernel has `NPROC`
processes and at most `LOGSIZE` pins, far below the bound. -/
def CounterRoom (s : BioState) (_ : BioAct) : Prop :=
  s.refs.length + s.pins.length + 1 < 2 ^ 32

/-- What the interface comment of `bio.c` asks of callers: after changing a
buffer's data, call `bwrite` for it before `brelse`, or `bpin`, and then do not undo
the pin before. Nothing is asked of the content of the disk. -/
def WritesBack (s : BioState) : BioAct → Prop
  | .releasesleep r => r.buf ∈ s.modified → r.buf ∈ s.pins
  | .bunpin i => i ∈ s.modified → i ∈ s.pins.erase i ∨ ∃ r ∈ s.refs, r.buf = i ∧ r.phase = .holding
  | _ => True

end Riscv2os.Xv7
