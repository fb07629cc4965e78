import Mathlib.Data.BitVec
import Riscv2os.Std.Ring
import Riscv2os.Xv7.Kernel

/-!
# The buffer cache of `bio.c`

The cache is modelled at the pointer level: an array of `NBUF` buffers whose
`next` and `prev` fields form a ring through `bcache.head`. Every definition
here is one critical section of the C code, so that the sequential functions
`bread` and `brelse` compose them and the concurrent system of
`Riscv2os.Xv7.BioCoherence` interleaves them.
-/

namespace Riscv2os.Xv7

open Riscv2os.Std

/-- One cached copy of a disk block. The sleeplock field holds the pid of the
process that has it. `refcnt` is an unsigned 32-bit count and wraps. -/
structure Buf where
  valid : Bool := false
  dev : Nat := 0
  blockno : Nat := 0
  lock : Option Nat := none
  refcnt : BitVec 32 := 0
  data : Block := fun _ => 0

/-- The disk block a buffer is labelled with. -/
def Buf.addr (b : Buf) : BlockAddr := ⟨b.dev, b.blockno⟩

/-- A node of the LRU ring: a buffer of the array, or `bcache.head`. -/
abbrev Node := Option (Fin NBUF)

/-- The global `bcache`. -/
structure Bcache where
  buf : Fin NBUF → Buf
  links : Links Node

/-- The block layer: the cache, the disks behind it, and the block writes the
disks have completed, in order. -/
structure BlockLayer where
  bcache : Bcache
  disk : Disk
  writes : List (BlockAddr × Block) := []

namespace Bcache

/-- Scan the ring in one direction for the first buffer that satisfies `p`. -/
def scan (c : Bcache) (step : Node → Node) (p : Buf → Bool) : Option (Fin NBUF) :=
  (Links.findFrom none step (fun node => node.any fun i => p (c.buf i)) NBUF (step none)).join

/-- Change one buffer of the array. -/
def update (c : Bcache) (i : Fin NBUF) (f : Buf → Buf) : Bcache :=
  { c with buf := Function.update c.buf i (f (c.buf i)) }

end Bcache

/-- Link every buffer of a zeroed array behind the head, in array order. -/
def binit : Bcache :=
  let empty : Links Node := ⟨fun _ => none, fun _ => none⟩
  { buf := fun _ => {}
    links := (List.finRange NBUF).foldl (fun links i => links.pushFront none (some i)) empty }

namespace BlockLayer

/-- Change one buffer of the cache. -/
def update (m : BlockLayer) (i : Fin NBUF) (f : Buf → Buf) : BlockLayer :=
  { m with bcache := m.bcache.update i f }

/-- The buffer at an index of the array. -/
def buf (m : BlockLayer) (i : Fin NBUF) : Buf := m.bcache.buf i

/-- The critical section of `bget`: look the block up, else recycle the least
recently used buffer that nobody references. -/
def bget (m : BlockLayer) (dev blockno : Nat) : Except Fault (Fin NBUF × BlockLayer) :=
  match m.bcache.scan m.bcache.links.next fun b => b.dev == dev && b.blockno == blockno with
  | some i => .ok (i, m.update i fun b => { b with refcnt := b.refcnt + 1 })
  | none =>
      match m.bcache.scan m.bcache.links.prev fun b => b.refcnt == 0 with
      | some i => .ok (i, m.update i fun b =>
          { b with dev := dev, blockno := blockno, valid := false, refcnt := 1 })
      | none => .error (.panic "bget: no buffers")

/-- `acquiresleep(&b->lock)`, which returns once the lock is free. -/
def acquiresleep (m : BlockLayer) (pid : Nat) (i : Fin NBUF) : Except Fault BlockLayer :=
  match (m.buf i).lock with
  | some _ => .error .blocked
  | none => .ok (m.update i fun b => { b with lock := some pid })

/-- `holdingsleep(&b->lock)`. -/
def holdingsleep (m : BlockLayer) (pid : Nat) (i : Fin NBUF) : Bool :=
  (m.buf i).lock == some pid

/-- `virtio_disk_rw(b->dev, b, write)`: transfer one whole block. -/
def virtioDiskRw (m : BlockLayer) (i : Fin NBUF) (write : Bool) : BlockLayer :=
  if write then
    { m with
      disk := Function.update m.disk (m.buf i).addr (m.buf i).data
      writes := m.writes ++ [((m.buf i).addr, (m.buf i).data)] }
  else m.update i fun b => { b with data := m.disk b.addr }

/-- The part of `bread` after `bget`. -/
def fill (m : BlockLayer) (i : Fin NBUF) : BlockLayer :=
  if (m.buf i).valid then m
  else (m.virtioDiskRw i false).update i fun b => { b with valid := true }

/-- A locked buffer with the contents of the indicated block. -/
def bread (m : BlockLayer) (pid dev blockno : Nat) : Except Fault (Fin NBUF × BlockLayer) := do
  let (i, m) ← m.bget dev blockno
  let m ← m.acquiresleep pid i
  return (i, m.fill i)

/-- The holder of a buffer stores into `b->data`. -/
def setData (m : BlockLayer) (i : Fin NBUF) (data : Block) : BlockLayer :=
  m.update i fun b => { b with data := data }

/-- Write a buffer's contents to disk. -/
def bwrite (m : BlockLayer) (pid : Nat) (i : Fin NBUF) : Except Fault BlockLayer :=
  if m.holdingsleep pid i then .ok (m.virtioDiskRw i true) else .error (.panic "bwrite")

/-- The first part of `brelse`: check and release the sleeplock. -/
def releasesleep (m : BlockLayer) (pid : Nat) (i : Fin NBUF) : Except Fault BlockLayer :=
  if m.holdingsleep pid i then .ok (m.update i fun b => { b with lock := none })
  else .error (.panic "brelse")

/-- The critical section of `brelse`: drop the reference and, if it was the last
one, move the buffer to the head of the MRU list. -/
def drop (m : BlockLayer) (i : Fin NBUF) : BlockLayer :=
  let m := m.update i fun b => { b with refcnt := b.refcnt - 1 }
  if (m.buf i).refcnt == 0 then
    { m with bcache := { m.bcache with
        links := (m.bcache.links.unlink (some i)).pushFront none (some i) } }
  else m

/-- Release a locked buffer. -/
def brelse (m : BlockLayer) (pid : Nat) (i : Fin NBUF) : Except Fault BlockLayer := do
  let m ← m.releasesleep pid i
  return m.drop i

/-- Keep a buffer in the cache. -/
def bpin (m : BlockLayer) (i : Fin NBUF) : BlockLayer :=
  m.update i fun b => { b with refcnt := b.refcnt + 1 }

/-- Undo one `bpin`. -/
def bunpin (m : BlockLayer) (i : Fin NBUF) : BlockLayer :=
  m.update i fun b => { b with refcnt := b.refcnt - 1 }

end BlockLayer

end Riscv2os.Xv7
