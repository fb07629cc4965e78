import Riscv2os.Std.RingBuffer
import Riscv2os.Std.TransitionSystem
import Riscv2os.Std.Virtqueue
import Riscv2os.Xv7.Kernel

/-!
# The virtio disk driver of xv7

`virtio_disk.c`, for one disk. Any number of processes are in `virtio_disk_rw`, and the handler
`virtio_disk_intr` runs on any hart; all of them take `vdisk_lock`, which a process gives up only while
it sleeps. A sleeper may be woken at any time, so `wakeup` leaves no trace here. The device fetches heads
from the available ring and completes fetched chains in any order, between any two steps of the
others.
-/

namespace Riscv2os.Xv7

open Riscv2os.Std
open Virtqueue

/-- The number of virtio descriptors. -/
abbrev NUM : Nat := 8

def VIRTIO_BLK_T_IN : BitVec 32 := 0

def VIRTIO_BLK_T_OUT : BitVec 32 := 1

/-- `struct virtio_blk_outhdr` -/
structure VirtioBlkOuthdr where
  type : BitVec 32
  reserved : BitVec 32
  sector : BitVec 64

/-- An element of `disk[n].info`. -/
structure DiskInfo (B : Type) where
  b : Option B
  status : BitVec 8

/-- `struct UsedArea`, with the `id` of each element. -/
structure UsedArea where
  id : BitVec 16
  elems : Fin NUM → Nat

/-- `disk[n]` without its lock. The reader of the available ring is the device. -/
structure VirtioDisk (B : Type) where
  table : DescTable
  avail : RingBuffer Nat NUM 16
  used : UsedArea
  usedIdx : BitVec 16
  info : Nat → DiskInfo B

/-- The block numbers of the buffers, and where things are in memory. -/
structure BufLayout (P B : Type) where
  blockno : B → BitVec 32
  data : B → BitVec 64
  /-- `kvmpa((uint64) &buf0)` on the stack of a process. -/
  buf0 : P → BitVec 64
  status : Nat → BitVec 64

/-- What `free_desc` does to the fields of a descriptor. -/
def clearAddr (d : Desc) : Desc := { d with addr := 0 }

/-- `alloc_desc` -/
def allocDesc (t : DescTable) : Option (Nat × DescTable) := t.alloc NUM

/-- `free_desc`. There is no result where it panics. -/
def freeDesc (t : DescTable) (i : Nat) : Option DescTable := t.release NUM clearAddr i

/-- `free_chain`, which reads the link of a descriptor after it has freed it. There is no result where it
panics. -/
def freeChain : Nat → Nat → DescTable → Option DescTable
  | 0, _, _ => none
  | fuel + 1, i, t =>
      match freeDesc t i with
      | none => none
      | some t =>
          if (t.desc i).flags &&& F_NEXT ≠ 0 then freeChain fuel (t.desc i).next.toNat t else some t

/-- `alloc3_desc` -/
def alloc3Desc (t : DescTable) : Option (Option Chain × DescTable) := t.alloc3 NUM clearAddr

/-- Where a process is in `virtio_disk_rw`. -/
inductive RwPc (B : Type) where
  | outside
  /-- At `acquire`. -/
  | entering (b : B) (write : Bool)
  /-- At `alloc3_desc`. -/
  | allocating (b : B) (write : Bool)
  /-- In `sleep` on the free map. -/
  | sleepingFree (b : B) (write : Bool)
  /-- It has its descriptors. -/
  | allocated (b : B) (write : Bool) (idx : Chain)
  /-- They are formatted. -/
  | formatted (b : B) (idx : Chain)
  /-- The head is in the available ring, which does not count it yet. -/
  | stored (b : B) (idx : Chain)
  /-- At the test of `b->disk`. -/
  | waiting (b : B) (idx : Chain)
  /-- In `sleep` on the buffer. -/
  | sleepingBuf (b : B) (idx : Chain)
  /-- At `release`. -/
  | leaving (b : B)

namespace RwPc

variable {B : Type}

/-- The request of a process. -/
def request : RwPc B → Option (Request B)
  | allocated b _ idx => some ⟨idx, b, .taken⟩
  | formatted b idx => some ⟨idx, b, .prepared⟩
  | stored b idx => some ⟨idx, b, .prepared⟩
  | waiting b idx => some ⟨idx, b, .submitted⟩
  | sleepingBuf b idx => some ⟨idx, b, .submitted⟩
  | _ => none

/-- The buffer that a process was called with. -/
def buf : RwPc B → Option B
  | outside => none
  | entering b _ => some b
  | allocating b _ => some b
  | sleepingFree b _ => some b
  | allocated b _ _ => some b
  | formatted b _ => some b
  | stored b _ => some b
  | waiting b _ => some b
  | sleepingBuf b _ => some b
  | leaving b => some b

/-- The process has the lock. -/
def Locked : RwPc B → Prop
  | outside => False
  | entering _ _ => False
  | sleepingFree _ _ => False
  | sleepingBuf _ _ => False
  | _ => True

end RwPc

/-- Who has `vdisk_lock`. -/
inductive DiskHolder (P : Type) where
  | proc (p : P)
  | intr
deriving DecidableEq

/-- The disk with the processes, the handler and the device. `busy` is the field `disk` of the buffers,
and `flight` records what goes through the rings. -/
structure VirtioSession (P B : Type) where
  disk : VirtioDisk B
  buf0 : P → VirtioBlkOuthdr
  busy : B → Bool
  lock : Option (DiskHolder P)
  pc : P → RwPc B
  flight : Flight

/-- Who does a step. -/
inductive VirtioEvent (P : Type) where
  | proc (p : P)
  | device
  | intr
  /-- A round of the loop of `virtio_disk_intr`. -/
  | round

namespace VirtioDisk

variable {B : Type}

/-- Format the three descriptors, and record the buffer. -/
def format {P : Type} (d : VirtioDisk B) (at_ : BufLayout P B) (p : P) (b : B) (write : Bool) (idx : Chain) :
    VirtioDisk B :=
  { d with
    table := { d.table with
      desc := linkDesc d.table.desc idx (at_.buf0 p) (at_.data b) (at_.status idx.first) 16
        (BitVec.ofNat 32 BSIZE) write }
    info := Function.update d.info idx.first ⟨some b, 0⟩ }

/-- `(disk[n].used_idx % NUM) != (disk[n].used->id % NUM)` -/
def hasUsed (d : VirtioDisk B) : Prop := d.usedIdx.toNat % NUM ≠ d.used.id.toNat % NUM

/-- `disk[n].used->elems[disk[n].used_idx].id` -/
def usedElem (d : VirtioDisk B) (inside : d.usedIdx.toNat < NUM) : Nat := d.used.elems ⟨d.usedIdx.toNat, inside⟩

end VirtioDisk

/-- `buf0` for a request. The number of the sector is a product of 32 bits. -/
def outhdr {P B : Type} (at_ : BufLayout P B) (b : B) (write : Bool) : VirtioBlkOuthdr :=
  ⟨if write then VIRTIO_BLK_T_OUT else VIRTIO_BLK_T_IN, 0,
    (at_.blockno b * BitVec.ofNat 32 (BSIZE / 512)).setWidth 64⟩

section Session

variable {P B : Type} [DecidableEq P] [DecidableEq B]

/-- A step of a process, of the device or of the handler. -/
inductive VirtioSession.Step (at_ : BufLayout P B) : VirtioSession P B → VirtioEvent P → VirtioSession P B → Prop where
  /-- The caller has the sleep-lock of the buffer, so that no other process is here with it. -/
  | call {s : VirtioSession P B} {p : P} {b : B} {write : Bool} (outside : s.pc p = .outside)
      (locked : ∀ p', (s.pc p').buf ≠ some b) :
      Step at_ s (.proc p) { s with pc := Function.update s.pc p (.entering b write) }
  | acquire {s : VirtioSession P B} {p : P} {b : B} {write : Bool} (entering : s.pc p = .entering b write)
      (free : s.lock = none) :
      Step at_ s (.proc p) { s with
        lock := some (.proc p), pc := Function.update s.pc p (.allocating b write) }
  | alloc {s : VirtioSession P B} {p : P} {b : B} {write : Bool} {idx : Chain} {t : DescTable}
      (allocating : s.pc p = .allocating b write) (ran : alloc3Desc s.disk.table = some (some idx, t)) :
      Step at_ s (.proc p) { s with
        disk := { s.disk with table := t }
        pc := Function.update s.pc p (.allocated b write idx) }
  /-- `alloc3_desc` returns -1, and the process sleeps. -/
  | sleepFree {s : VirtioSession P B} {p : P} {b : B} {write : Bool} {t : DescTable}
      (allocating : s.pc p = .allocating b write) (ran : alloc3Desc s.disk.table = some (none, t)) :
      Step at_ s (.proc p) { s with
        disk := { s.disk with table := t }
        lock := none, pc := Function.update s.pc p (.sleepingFree b write) }
  | wakeFree {s : VirtioSession P B} {p : P} {b : B} {write : Bool} (sleeping : s.pc p = .sleepingFree b write)
      (free : s.lock = none) :
      Step at_ s (.proc p) { s with
        lock := some (.proc p), pc := Function.update s.pc p (.allocating b write) }
  | format {s : VirtioSession P B} {p : P} {b : B} {write : Bool} {idx : Chain}
      (allocated : s.pc p = .allocated b write idx) :
      Step at_ s (.proc p) { s with
        disk := s.disk.format at_ p b write idx
        buf0 := Function.update s.buf0 p (outhdr at_ b write)
        busy := Function.update s.busy b true
        pc := Function.update s.pc p (.formatted b idx) }
  /-- `disk[n].avail[2 + (disk[n].avail[1] % NUM)] = idx[0]` -/
  | store {s : VirtioSession P B} {p : P} {b : B} {idx : Chain} (formatted : s.pc p = .formatted b idx) :
      Step at_ s (.proc p) { s with
        disk := { s.disk with avail := s.disk.avail.store idx.first }
        pc := Function.update s.pc p (.stored b idx) }
  /-- `disk[n].avail[1] = disk[n].avail[1] + 1`, and the device is notified. -/
  | publish {s : VirtioSession P B} {p : P} {b : B} {idx : Chain} (stored : s.pc p = .stored b idx) :
      Step at_ s (.proc p) { s with
        disk := { s.disk with avail := s.disk.avail.count }
        flight := s.flight.publish idx.first
        pc := Function.update s.pc p (.waiting b idx) }
  | sleepBuf {s : VirtioSession P B} {p : P} {b : B} {idx : Chain} (waiting : s.pc p = .waiting b idx)
      (busy : s.busy b = true) :
      Step at_ s (.proc p) { s with lock := none, pc := Function.update s.pc p (.sleepingBuf b idx) }
  | wakeBuf {s : VirtioSession P B} {p : P} {b : B} {idx : Chain} (sleeping : s.pc p = .sleepingBuf b idx)
      (free : s.lock = none) :
      Step at_ s (.proc p) { s with
        lock := some (.proc p), pc := Function.update s.pc p (.waiting b idx) }
  /-- The request has finished. -/
  | finish {s : VirtioSession P B} {p : P} {b : B} {idx : Chain} {t : DescTable}
      (waiting : s.pc p = .waiting b idx) (heard : s.busy b = false)
      (ran : freeChain (NUM + 1) idx.first s.disk.table = some t) :
      Step at_ s (.proc p) { s with
        disk := { s.disk with
          table := t
          info := Function.update s.disk.info idx.first { s.disk.info idx.first with b := none } }
        pc := Function.update s.pc p (.leaving b) }
  | release {s : VirtioSession P B} {p : P} {b : B} (leaving : s.pc p = .leaving b) :
      Step at_ s (.proc p) { s with lock := none, pc := Function.update s.pc p .outside }
  | fetch {s : VirtioSession P B} (more : s.disk.avail.nread ≠ s.disk.avail.nwrite) :
      Step at_ s .device { s with
        disk := { s.disk with avail := s.disk.avail.pop }
        flight := s.flight.fetch s.disk.avail.front }
  | complete {s : VirtioSession P B} {id : Nat} {status : BitVec 8} (pending : id ∈ s.flight.pending) :
      Step at_ s .device { s with
        disk := { s.disk with
          used := ⟨s.disk.used.id + 1,
            Function.update s.disk.used.elems (RingBuffer.place NUM s.disk.used.id) id⟩
          info := Function.update s.disk.info id { s.disk.info id with status := status } }
        flight := s.flight.complete id }
  /-- `virtio_disk_intr` begins. -/
  | intr {s : VirtioSession P B} (free : s.lock = none) : Step at_ s .intr { s with lock := some .intr }
  /-- A round of its loop that does not panic. -/
  | round {s : VirtioSession P B} {b : B} (holds : s.lock = some .intr) (more : s.disk.hasUsed)
      (inside : s.disk.usedIdx.toNat < NUM) (status : (s.disk.info (s.disk.usedElem inside)).status = 0)
      (buffer : (s.disk.info (s.disk.usedElem inside)).b = some b) :
      Step at_ s .round { s with
        disk := { s.disk with usedIdx := BitVec.ofNat 16 ((s.disk.usedIdx.toNat + 1) % NUM) }
        busy := Function.update s.busy b false
        flight := s.flight.process (s.disk.usedElem inside) }
  /-- It ends when the indices agree. -/
  | intrEnd {s : VirtioSession P B} (holds : s.lock = some .intr) (done : ¬ s.disk.hasUsed) :
      Step at_ s .intr { s with lock := none }

/-- The sessions after `virtio_disk_init`. -/
def virtioSystem (at_ : BufLayout P B) : TransitionSystem (VirtioSession P B) (VirtioEvent P) where
  Initial s := (∀ i < NUM, s.disk.table.free i = true) ∧ s.disk.avail.nread = 0 ∧ s.disk.avail.nwrite = 0 ∧
    s.disk.used.id = 0 ∧ s.disk.usedIdx = 0 ∧ s.lock = none ∧ (∀ p, s.pc p = .outside) ∧
    s.flight = ⟨[], [], [], [], []⟩
  Step := VirtioSession.Step at_

end Session

/-- What a session is to the library. -/
def VirtioSession.toQueue {P B : Type} (s : VirtioSession P B) : Queue P B where
  desc := s.disk.table.desc
  free := s.disk.table.free
  info := fun i => (s.disk.info i).b
  disk := s.busy
  flight := s.flight
  req := fun p => (s.pc p).request

/-- The used ring with a reader that counts all elements, of which `used_idx` is the remainder. -/
def UsedArea.toRing (u : UsedArea) (processed : List Nat) : RingBuffer Nat NUM 16 :=
  ⟨u.elems, BitVec.ofNat 16 processed.length, u.id⟩

/-- What holds in every state of a session. -/
structure VirtioSession.Sound {P B : Type} (s : VirtioSession P B) : Prop where
  queue : s.toQueue.Sound NUM
  locked : ∀ p, (s.pc p).Locked → s.lock = some (.proc p)
  exclusive : ∀ p p' b, (s.pc p).buf = some b → (s.pc p').buf = some b → p = p'
  avail : s.disk.avail.Holds s.flight.published s.flight.fetched
  used : (s.disk.used.toRing s.flight.processed).Holds s.flight.completed s.flight.processed
  usedIdx : s.disk.usedIdx.toNat = s.flight.processed.length % NUM
  stored : ∀ p b idx, s.pc p = .stored b idx →
    s.disk.avail.data (RingBuffer.place NUM s.disk.avail.nwrite) = idx.first

section Chains

variable {t : DescTable} {c : Chain}

/-- `free_chain` frees the three descriptors of a linked chain and no others. A descriptor that was
freed is still linked. -/
theorem freeChain_linked (linked : Linked t.desc c) (nodup : c.toList.Nodup)
    (used : ∀ d ∈ c.toList, d < NUM ∧ t.free d = false) (fuel : Nat) :
    ∃ t', freeChain (fuel + 3) c.first t = some t' ∧
      (∀ d, t'.free d = true ↔ t.free d = true ∨ d ∈ c.toList) ∧ ∀ d, d ∉ c.toList → t'.desc d = t.desc d := by
  obtain ⟨t1, t2, t3, step1, step2, step3, _, _, after1, after2, after3, free, desc⟩ :=
    @DescTable.release_three NUM clearAddr t c nodup used
  refine ⟨t3, ?_, free, desc⟩
  simp only [freeChain, freeDesc, step1, after1, clearAddr, linked.toSecond, step2, after2, linked.toThird,
    step3, after3]
  rw [if_pos linked.first, if_pos linked.second, if_neg (not_not.mpr linked.third)]

end Chains

namespace VirtioSession

variable {P B : Type} {s s' : VirtioSession P B} {p p' : P}

theorem buf_of_request {pc : RwPc B} {r : Request B} (holds : pc.request = some r) :
    pc.buf = some r.buf := by
  cases pc with
  | allocated => cases holds; rfl
  | formatted => cases holds; rfl
  | stored => cases holds; rfl
  | waiting => cases holds; rfl
  | sleepingBuf => cases holds; rfl
  | _ => cases holds

namespace Sound

theorem divides : NUM ∣ 2 ^ 16 := ⟨8192, by decide⟩

/-- Neither ring is full. -/
theorem room (sound : s.Sound) :
    s.flight.published.length < s.flight.fetched.length + NUM ∧
      s.flight.completed.length < s.flight.processed.length + NUM := by
  have bound : 3 * s.flight.outstanding.length ≤ NUM := sound.queue.three_mul_length_le
  simp only [Flight.outstanding, List.length_append, List.length_drop] at bound
  simp only [NUM] at bound ⊢
  omega

/-- Since fewer than `NUM` elements are not yet processed, the remainders of the indices tell whether there
are any. -/
theorem hasUsed_iff (sound : s.Sound) :
    s.disk.hasUsed ↔ s.flight.processed.length < s.flight.completed.length := by
  have le := sound.used.order.length_le
  have room := sound.room.2
  have written : s.disk.used.id.toNat = s.flight.completed.length % 2 ^ 16 := by
    have same : s.disk.used.id = BitVec.ofNat 16 s.flight.completed.length := sound.used.nwrite
    rw [same, BitVec.toNat_ofNat]
  unfold VirtioDisk.hasUsed
  rw [written, sound.usedIdx]
  simp only [NUM] at room ⊢
  omega

theorem inside (sound : s.Sound) : s.disk.usedIdx.toNat < NUM := by
  rw [sound.usedIdx]
  exact Nat.mod_lt _ (by decide)

/-- The handler looks at the element that comes next. -/
theorem usedElem_eq (sound : s.Sound) (more : s.flight.processed.length < s.flight.completed.length)
    (inside : s.disk.usedIdx.toNat < NUM) :
    s.disk.usedElem inside = s.flight.completed[s.flight.processed.length] := by
  rw [← sound.used.front_eq divides more]
  have place : (⟨s.disk.usedIdx.toNat, inside⟩ : Fin NUM) =
      RingBuffer.place NUM (BitVec.ofNat 16 s.flight.processed.length) := by
    rw [RingBuffer.place_ofNat divides]
    exact Fin.ext sound.usedIdx
  exact congrArg s.disk.used.elems place

/-- Only one process has the lock. -/
theorem alone (sound : s.Sound) (locked : (s.pc p).Locked) (locked' : (s.pc p').Locked) : p' = p := by
  have same := (sound.locked p' locked').symm.trans (sound.locked p locked)
  cases same
  rfl

/-- The next element of the used ring is the head of a process that waits for its buffer. -/
theorem next (sound : s.Sound) (more : s.disk.hasUsed) : ∃ p r, (s.pc p).request = some r ∧
    r.stage = .submitted ∧ r.chain.first = s.disk.usedElem sound.inside ∧
      (s.disk.info (s.disk.usedElem sound.inside)).b = some r.buf ∧ s.busy r.buf = true := by
  have more := sound.hasUsed_iff.mp more
  have next := sound.usedElem_eq more sound.inside
  have member := Flight.mem_outstanding more next.symm
  obtain ⟨p, r, holds, stage, first⟩ := sound.queue.known _ member
  have recorded := (sound.queue.linked p r holds (by rw [stage]; simp)).2
  rw [first] at recorded
  exact ⟨p, r, holds, stage, first, recorded, (sound.queue.submitted p r holds stage).mpr (first ▸ member)⟩

/-- While nobody has the lock, no process is where it needs it. -/
theorem nobody (sound : s.Sound) (free : s.lock = none) (p p' : P) (locked : (s.pc p').Locked) : p' = p := by
  rw [sound.locked p' locked] at free
  cases free

/-- No other process is where it needs the lock. -/
theorem mine (sound : s.Sound) {x : RwPc B} (is : s.pc p = x) (locked : x.Locked) (p' : P)
    (locked' : (s.pc p').Locked) : p' = p :=
  sound.alone (by rw [is]; exact locked) locked'

theorem owns (sound : s.Sound) {x : RwPc B} (is : s.pc p = x) (locked : x.Locked) : s.lock = some (.proc p) :=
  sound.locked p (by rw [is]; exact locked)

theorem request_at {x : RwPc B} (is : s.pc p = x) : s.toQueue.req p = x.request := congrArg RwPc.request is

/-- The device takes a request from the available ring. -/
theorem fetch (sound : s.Sound) (more : s.disk.avail.nread ≠ s.disk.avail.nwrite) :
    Sound { s with
      disk := { s.disk with avail := s.disk.avail.pop }
      flight := s.flight.fetch s.disk.avail.front } := by
  have short : NUM < 2 ^ 16 := by decide
  obtain ⟨room, _⟩ := sound.room
  have more : s.flight.fetched.length < s.flight.published.length := by
    have le := sound.avail.order.length_le
    have differ := (sound.avail.empty_iff short).not.mp more
    omega
  exact ⟨sound.queue.reorder (Flight.outstanding_fetch more (sound.avail.front_eq divides more).symm),
    sound.locked, sound.exclusive, sound.avail.pop divides more, sound.used, sound.usedIdx, sound.stored⟩

/-- The device answers a request, whichever it likes. -/
theorem complete (sound : s.Sound) {id : Nat} {status : BitVec 8} (pending : id ∈ s.flight.pending) :
    Sound { s with
      disk := { s.disk with
        used := ⟨s.disk.used.id + 1,
          Function.update s.disk.used.elems (RingBuffer.place NUM s.disk.used.id) id⟩
        info := Function.update s.disk.info id { s.disk.info id with status := status } }
      flight := s.flight.complete id } := by
  have info : (fun i => (Function.update s.disk.info id
      { s.disk.info id with status := status } i).b) = s.toQueue.info :=
    (Function.comp_update DiskInfo.b s.disk.info id _).trans (Function.update_eq_self id s.toQueue.info)
  refine ⟨?_, sound.locked, sound.exclusive, sound.avail, sound.used.push divides sound.room.2 id, sound.usedIdx,
    sound.stored⟩
  rw [VirtioSession.toQueue]
  dsimp only
  rw [info]
  exact sound.queue.reorder (Flight.outstanding_complete sound.used.order.length_le pending)

variable [DecidableEq P]

theorem request_update (x : RwPc B) : (fun p' => (Function.update s.pc p x p').request) =
    Function.update s.toQueue.req p x.request :=
  Function.comp_update RwPc.request s.pc p x

/-- The process that has the lock, or takes it, goes on. -/
theorem proc (sound : s.Sound) {disk : VirtioDisk B} {buf0 : P → VirtioBlkOuthdr} {busy : B → Bool}
    {lock : Option (DiskHolder P)} {x : RwPc B} {flight : Flight}
    (mine : ∀ p', (s.pc p').Locked → p' = p) (lock' : x.Locked → lock = some (.proc p))
    (buf : ∀ b, x.buf = some b → (s.pc p).buf = some b)
    (queue : Queue.Sound NUM ⟨disk.table.desc, disk.table.free, fun i => (disk.info i).b, busy, flight,
      Function.update s.toQueue.req p x.request⟩)
    (avail : disk.avail.Holds flight.published flight.fetched)
    (used : (disk.used.toRing flight.processed).Holds flight.completed flight.processed)
    (usedIdx : disk.usedIdx.toNat = flight.processed.length % NUM)
    (stored : ∀ b idx, x = .stored b idx →
      disk.avail.data (RingBuffer.place NUM disk.avail.nwrite) = idx.first) :
    Sound ⟨disk, buf0, busy, lock, Function.update s.pc p x, flight⟩ := by
  have only : ∀ p', (Function.update s.pc p x p').Locked → p' = p ∧ x.Locked := fun p' locked => by
    by_cases is : p' = p
    · rw [is, Function.update_self] at locked
      exact ⟨is, locked⟩
    · rw [Function.update_of_ne is] at locked
      exact absurd (mine p' locked) is
  have before : ∀ p' b, (Function.update s.pc p x p').buf = some b → (s.pc p').buf = some b := fun p' b has => by
    by_cases is : p' = p
    · rw [is, Function.update_self] at has
      rw [is]
      exact buf b has
    · rwa [Function.update_of_ne is] at has
  refine ⟨?_, fun p' locked => ?_, fun p1 p2 b has1 has2 => sound.exclusive p1 p2 b (before p1 b has1)
    (before p2 b has2), avail, used, usedIdx, fun p' b idx at_ => ?_⟩
  · rw [← request_update] at queue
    exact queue
  · obtain ⟨is, locked⟩ := only p' locked
    rw [is]
    exact lock' locked
  · have at_ : Function.update s.pc p x p' = .stored b idx := at_
    obtain ⟨is, _⟩ := only p' (by rw [at_]; trivial)
    rw [is, Function.update_self] at at_
    exact stored b idx at_

theorem initial [DecidableEq B] {at_ : BufLayout P B} (started : (virtioSystem at_).Initial s) : s.Sound := by
  obtain ⟨free, availRead, availWrite, id, usedIdx, _, outside, flight⟩ := started
  refine ⟨Queue.Sound.empty free (fun p => ?_) (by show s.flight.outstanding = []; rw [flight]; rfl),
    fun p locked => ?_, fun p p' b has => ?_, ?_, ?_, ?_, fun p b idx stored => ?_⟩
  · show (s.pc p).request = none
    rw [outside p]
    rfl
  · rw [outside p] at locked
    exact locked.elim
  · rw [outside p] at has
    cases has
  · rw [flight]
    exact ⟨availRead, availWrite, List.prefix_rfl, by simp, fun k _ inside => absurd inside (by simp)⟩
  · rw [flight]
    exact ⟨rfl, id, List.prefix_rfl, by simp, fun k _ inside => absurd inside (by simp)⟩
  · rw [usedIdx, flight]
    rfl
  · rw [outside p] at stored
    cases stored

theorem request_keep {x : RwPc B} (y : RwPc B) (is : s.pc p = x) (same : y.request = x.request) :
    Function.update s.toQueue.req p y.request = s.toQueue.req := by
  rw [same, ← request_at is, Function.update_eq_self]

/-- A process takes the lock or gives it up, and its request stays as it is. -/
theorem moved (sound : s.Sound) {x y : RwPc B} {lock : Option (DiskHolder P)} (is : s.pc p = x)
    (mine : ∀ p', (s.pc p').Locked → p' = p) (lock' : y.Locked → lock = some (.proc p))
    (same : y.request = x.request) (buf : ∀ b, y.buf = some b → x.buf = some b) (stored : ∀ b idx, y ≠ .stored b idx) :
    Sound { s with lock := lock, pc := Function.update s.pc p y } := by
  refine sound.proc mine lock' (fun b has => by rw [is]; exact buf b has) ?_ sound.avail sound.used sound.usedIdx
    fun b idx at_ => absurd at_ (stored b idx)
  rw [request_keep y is same]
  exact sound.queue

/-- `virtio_disk_rw` is called for a buffer that no other process has. -/
theorem call (sound : s.Sound) {b : B} {write : Bool} (outside : s.pc p = .outside)
    (locked : ∀ p', (s.pc p').buf ≠ some b) : Sound { s with pc := Function.update s.pc p (.entering b write) } := by
  have before : ∀ p', p' ≠ p → Function.update s.pc p (.entering b write) p' = s.pc p' :=
    fun p' differ => Function.update_of_ne differ ..
  have here : Function.update s.pc p (.entering b write) p = .entering b write := Function.update_self ..
  refine ⟨?_, fun p' holds => ?_, fun p1 p2 b' has1 has2 => ?_, sound.avail, sound.used, sound.usedIdx,
    fun p' b' idx stored => ?_⟩
  · have queue := sound.queue
    rw [VirtioSession.toQueue, request_update, request_keep (.entering b write) outside rfl]
    exact queue
  · have holds : (Function.update s.pc p (.entering b write) p').Locked := holds
    by_cases is : p' = p
    · rw [is, here] at holds
      exact holds.elim
    · rw [before p' is] at holds
      exact sound.locked p' holds
  · have has1 : (Function.update s.pc p (.entering b write) p1).buf = some b' := has1
    have has2 : (Function.update s.pc p (.entering b write) p2).buf = some b' := has2
    by_cases is1 : p1 = p <;> by_cases is2 : p2 = p
    · rw [is1, is2]
    · rw [is1, here] at has1
      cases has1
      rw [before p2 is2] at has2
      exact absurd has2 (locked p2)
    · rw [is2, here] at has2
      cases has2
      rw [before p1 is1] at has1
      exact absurd has1 (locked p1)
    · rw [before p1 is1] at has1
      rw [before p2 is2] at has2
      exact sound.exclusive p1 p2 b' has1 has2
  · have stored : Function.update s.pc p (.entering b write) p' = .stored b' idx := stored
    by_cases is : p' = p
    · rw [is, here] at stored
      cases stored
    · rw [before p' is] at stored
      exact sound.stored p' b' idx stored

/-- `alloc3_desc` finds three free descriptors. -/
theorem alloc (sound : s.Sound) {b : B} {write : Bool} {idx : Chain} {t : DescTable}
    (allocating : s.pc p = .allocating b write) (ran : alloc3Desc s.disk.table = some (some idx, t)) :
    Sound { s with
      disk := { s.disk with table := t }
      pc := Function.update s.pc p (.allocated b write idx) } := by
  obtain ⟨result, t', ran', desc, _, done⟩ := DescTable.alloc3_spec NUM clearAddr s.disk.table
  cases Option.some.inj (ran'.symm.trans ran)
  obtain ⟨nodup, wasFree, free⟩ := done idx rfl
  have idle : s.toQueue.req p = none := request_at allocating
  have others : ∀ p' r, s.toQueue.req p' = some r → r.buf ≠ b := fun p' r holds is => by
    have has : (s.pc p).buf = some b := by rw [allocating]; rfl
    have same := sound.exclusive p' p b (is ▸ buf_of_request holds) has
    rw [same, idle] at holds
    cases holds
  exact sound.proc (sound.mine allocating trivial) (fun _ => sound.owns allocating trivial)
    (fun b' has => by rw [allocating]; exact has)
    ((sound.queue.rewrite desc).take idle nodup wasFree free others) sound.avail sound.used sound.usedIdx
    fun b idx at_ => by cases at_

/-- It finds fewer, and leaves all that are free as they were. -/
theorem sleepFree (sound : s.Sound) {b : B} {write : Bool} {t : DescTable}
    (allocating : s.pc p = .allocating b write) (ran : alloc3Desc s.disk.table = some (none, t)) :
    Sound { s with
      disk := { s.disk with table := t }
      lock := none
      pc := Function.update s.pc p (.sleepingFree b write) } := by
  obtain ⟨result, t', ran', desc, failed, _⟩ := DescTable.alloc3_spec NUM clearAddr s.disk.table
  cases Option.some.inj (ran'.symm.trans ran)
  refine sound.proc (sound.mine allocating trivial) (fun locked => locked.elim)
    (fun b' has => by rw [allocating]; exact has) ?_ sound.avail sound.used sound.usedIdx
    fun b idx at_ => by cases at_
  rw [request_keep (.sleepingFree b write) allocating rfl]
  dsimp only
  rw [failed rfl]
  exact sound.queue.rewrite desc

/-- The chain is filled in. -/
theorem format [DecidableEq B] (at_ : BufLayout P B) (sound : s.Sound) {b : B} {write : Bool} {idx : Chain}
    (allocated : s.pc p = .allocated b write idx) :
    Sound { s with
      disk := s.disk.format at_ p b write idx
      buf0 := Function.update s.buf0 p (outhdr at_ b write)
      busy := Function.update s.busy b true
      pc := Function.update s.pc p (.formatted b idx) } := by
  have short : NUM < 2 ^ 16 := by decide
  have holds := request_at allocated
  have small : ∀ d ∈ idx.toList, d < 2 ^ 16 := fun d member =>
    (sound.queue.inside p _ holds d member).1.trans short
  refine sound.proc (sound.mine allocated trivial) (fun _ => sound.owns allocated trivial)
    (fun b' has => by rw [allocated]; exact has) ?_ sound.avail sound.used sound.usedIdx
    fun b idx at_ => by cases at_
  have info : (fun i => (Function.update s.disk.info idx.first ⟨some b, 0⟩ i).b) =
      Function.update s.toQueue.info idx.first (some b) :=
    Function.comp_update DiskInfo.b s.disk.info idx.first _
  rw [VirtioDisk.format]
  dsimp only
  rw [info]
  exact sound.queue.prepare holds (linked_linkDesc (sound.queue.distinct p _ holds) small)
    fun d outside => linkDesc_outside outside

/-- The element of the available ring is written, and not yet counted. -/
theorem store (sound : s.Sound) {b : B} {idx : Chain} (formatted : s.pc p = .formatted b idx) :
    Sound { s with
      disk := { s.disk with avail := s.disk.avail.store idx.first }
      pc := Function.update s.pc p (.stored b idx) } := by
  refine sound.proc (sound.mine formatted trivial) (fun _ => sound.owns formatted trivial)
    (fun b' has => by rw [formatted]; exact has) ?_ (sound.avail.store divides sound.room.1 _) sound.used
    sound.usedIdx fun b' idx' at_ => ?_
  · rw [request_keep (.stored b idx) formatted rfl]
    exact sound.queue
  · cases at_
    exact Function.update_self ..

/-- It is counted. -/
theorem publish (sound : s.Sound) {b : B} {idx : Chain} (stored : s.pc p = .stored b idx) :
    Sound { s with
      disk := { s.disk with avail := s.disk.avail.count }
      flight := s.flight.publish idx.first
      pc := Function.update s.pc p (.waiting b idx) } :=
  sound.proc (sound.mine stored trivial) (fun _ => sound.owns stored trivial)
    (fun b' has => by rw [stored]; exact has)
    (sound.queue.publish (request_at stored) (Flight.outstanding_publish sound.avail.order.length_le))
    (sound.avail.count divides sound.room.1 (sound.stored p b idx stored)) sound.used sound.usedIdx
    fun b idx at_ => by cases at_

/-- `free_chain` frees the descriptors of a request that has finished. -/
theorem finish [DecidableEq B] (sound : s.Sound) {b : B} {idx : Chain} {t : DescTable}
    (waiting : s.pc p = .waiting b idx) (heard : s.busy b = false)
    (ran : freeChain (NUM + 1) idx.first s.disk.table = some t) :
    Sound { s with
      disk := { s.disk with
        table := t
        info := Function.update s.disk.info idx.first { s.disk.info idx.first with b := none } }
      pc := Function.update s.pc p (.leaving b) } := by
  have holds := request_at waiting
  obtain ⟨t', ran', free, desc⟩ := freeChain_linked (sound.queue.linked p _ holds (by simp)).1
    (sound.queue.distinct p _ holds) (sound.queue.inside p _ holds) 6
  cases Option.some.inj (ran'.symm.trans ran)
  have info : (fun i => (Function.update s.disk.info idx.first
      { s.disk.info idx.first with b := none } i).b) = Function.update s.toQueue.info idx.first none :=
    Function.comp_update DiskInfo.b s.disk.info idx.first _
  refine sound.proc (sound.mine waiting trivial) (fun _ => sound.owns waiting trivial)
    (fun b' has => by rw [waiting]; exact has) ?_ sound.avail sound.used sound.usedIdx
    fun b idx at_ => by cases at_
  rw [info]
  exact sound.queue.release holds rfl heard free desc

/-- The handler takes an element of the used ring. -/
theorem round [DecidableEq B] (sound : s.Sound) {b : B} (more : s.disk.hasUsed)
    (inside : s.disk.usedIdx.toNat < NUM) (buffer : (s.disk.info (s.disk.usedElem inside)).b = some b) :
    Sound { s with
      disk := { s.disk with usedIdx := BitVec.ofNat 16 ((s.disk.usedIdx.toNat + 1) % NUM) }
      busy := Function.update s.busy b false
      flight := s.flight.process (s.disk.usedElem inside) } := by
  obtain ⟨p, r, has, stage, first, recorded, _⟩ := sound.next more
  cases buffer.symm.trans recorded
  have more := sound.hasUsed_iff.mp more
  have next := sound.usedElem_eq more inside
  have perm := Flight.outstanding_process more next.symm
  rw [← first] at perm
  have popped := sound.used.pop divides more
  have front : (s.disk.used.toRing s.flight.processed).front = s.disk.usedElem inside :=
    (sound.used.front_eq divides more).trans next.symm
  have ring : (s.disk.used.toRing s.flight.processed).pop =
      s.disk.used.toRing (s.flight.processed ++ [s.disk.usedElem inside]) := by
    rw [UsedArea.toRing, UsedArea.toRing, List.length_append, BitVec.ofNat_add]
    rfl
  rw [front, ring] at popped
  refine ⟨first ▸ sound.queue.process has perm, fun p' locked => ?_, sound.exclusive, sound.avail, popped, ?_,
    sound.stored⟩
  · exact sound.locked p' locked
  · show (BitVec.ofNat 16 ((s.disk.usedIdx.toNat + 1) % NUM)).toNat =
      (s.flight.processed ++ [s.disk.usedElem inside]).length % NUM
    rw [BitVec.toNat_ofNat, sound.usedIdx, List.length_append, List.length_singleton]
    simp only [NUM]
    omega

/-- Every step keeps the session sound. -/
theorem step [DecidableEq B] {at_ : BufLayout P B} {e : VirtioEvent P} (sound : s.Sound)
    (step : Step at_ s e s') : s'.Sound := by
  cases step with
  | call outside locked => exact sound.call outside locked
  | @acquire p b write entering free =>
      exact sound.moved entering (sound.nobody free p) (fun _ => rfl) rfl (fun _ has => has) nofun
  | alloc allocating ran => exact sound.alloc allocating ran
  | sleepFree allocating ran => exact sound.sleepFree allocating ran
  | @wakeFree p b write sleeping free =>
      exact sound.moved sleeping (sound.nobody free p) (fun _ => rfl) rfl (fun _ has => has) nofun
  | format allocated => exact sound.format at_ allocated
  | store formatted => exact sound.store formatted
  | publish stored => exact sound.publish stored
  | sleepBuf waiting busy =>
      exact sound.moved waiting (sound.mine waiting trivial) (fun locked => locked.elim) rfl (fun _ has => has) nofun
  | @wakeBuf p b idx sleeping free =>
      exact sound.moved sleeping (sound.nobody free p) (fun _ => rfl) rfl (fun _ has => has) nofun
  | finish waiting heard ran => exact sound.finish waiting heard ran
  | release leaving =>
      exact sound.moved leaving (sound.mine leaving trivial) (fun locked => locked.elim) rfl nofun nofun
  | fetch more => exact sound.fetch more
  | complete pending => exact sound.complete pending
  | intr free =>
      refine ⟨sound.queue, fun p locked => ?_, sound.exclusive, sound.avail, sound.used, sound.usedIdx,
        sound.stored⟩
      rw [sound.locked p locked] at free
      cases free
  | round holds more inside status buffer => exact sound.round more inside buffer
  | intrEnd holds done =>
      refine ⟨sound.queue, fun p locked => ?_, sound.exclusive, sound.avail, sound.used, sound.usedIdx,
        sound.stored⟩
      have owner := (sound.locked p locked).symm.trans holds
      cases owner

theorem inductive_ [DecidableEq B] {at_ : BufLayout P B} :
    (virtioSystem at_).Inductive (fun _ _ => True) Sound where
  initial := initial
  preserved := fun sound _ => sound.step

end Sound

end VirtioSession

open VirtioSession in
/-- In every session each descriptor is free or belongs to one request; `alloc3_desc` and `free_chain` do
not panic, the one leaves all free descriptors free where it fails, and the other frees the
descriptors of its request; and the handler takes the elements of the used ring one after the
other, up to the last, and clears the flag of the buffer whose request has the head that it
takes. -/
theorem virtio_requests {P B : Type} [DecidableEq P] [DecidableEq B] {at_ : BufLayout P B}
    {s : VirtioSession P B} (run : (virtioSystem at_).Reachable s) :
    (∀ d < NUM,
      (s.disk.table.free d = true ∧ ∀ p r, (s.pc p).request = some r → d ∉ r.chain.toList) ∨
      (s.disk.table.free d = false ∧
        ∃ p r, ((s.pc p).request = some r ∧ d ∈ r.chain.toList) ∧
          ∀ p' r', (s.pc p').request = some r' → d ∈ r'.chain.toList → p' = p)) ∧
    (∀ t, ∃ result t', alloc3Desc t = some (result, t') ∧ (result = none → t'.free = t.free)) ∧
    (∀ p b idx, s.pc p = .waiting b idx →
      ∃ t, freeChain (NUM + 1) idx.first s.disk.table = some t ∧
        ∀ d, t.free d = true ↔ s.disk.table.free d = true ∨ d ∈ idx.toList) ∧
    (s.flight.processed <+: s.flight.completed ∧
      (s.disk.hasUsed ↔ s.flight.processed ≠ s.flight.completed) ∧
      (s.disk.hasUsed → ∃ inside : s.disk.usedIdx.toNat < NUM, ∃ p r, (s.pc p).request = some r ∧
        r.stage = .submitted ∧ r.chain.first = s.disk.usedElem inside ∧
        (s.disk.info (s.disk.usedElem inside)).b = some r.buf ∧ s.busy r.buf = true ∧
        s.flight.processed ++ [s.disk.usedElem inside] <+: s.flight.completed ∧
        ∀ s', Step at_ s .round s' → s'.busy = Function.update s.busy r.buf false ∧
          s'.flight.processed = s.flight.processed ++ [s.disk.usedElem inside])) := by
  have sound : s.Sound := run.invariant Sound.inductive_
  have order := sound.used.order
  refine ⟨fun d small => sound.queue.owner small, fun t => ?_, fun p b idx waiting => ?_, order,
    sound.hasUsed_iff.trans ?_, fun more => ?_⟩
  · obtain ⟨result, t', ran, _, failed, _⟩ := DescTable.alloc3_spec NUM clearAddr t
    exact ⟨result, t', ran, failed⟩
  · have holds : s.toQueue.req p = some ⟨idx, b, .submitted⟩ := congrArg RwPc.request waiting
    obtain ⟨t, ran, free, _⟩ := freeChain_linked (sound.queue.linked p _ holds (by simp)).1
      (sound.queue.distinct p _ holds) (sound.queue.inside p _ holds) 6
    exact ⟨t, ran, free⟩
  · constructor
    · intro less same
      rw [same] at less
      exact absurd less (lt_irrefl _)
    · intro differ
      exact lt_of_le_of_ne order.length_le fun same => differ (order.eq_of_length same)
  · obtain ⟨p, r, holds, stage, first, recorded, busy⟩ := sound.next more
    have less := sound.hasUsed_iff.mp more
    have popped := (sound.used.pop Sound.divides less).order
    rw [sound.used.front_eq Sound.divides less, ← sound.usedElem_eq less sound.inside] at popped
    refine ⟨sound.inside, p, r, holds, stage, first, recorded, busy, popped, fun s' step => ?_⟩
    cases step with
    | round _ _ inside _ buffer =>
        cases recorded.symm.trans buffer
        exact ⟨rfl, rfl⟩

/-- A disk with free descriptors and empty rings. -/
def freshVirtioDisk : VirtioDisk Nat :=
  ⟨⟨fun _ => ⟨0, 0, 0, 0⟩, fun _ => true⟩, ⟨fun _ => 0, 0, 0⟩, ⟨0, fun _ => 0⟩, 0, fun _ => ⟨none, 0⟩⟩

/-- Two processes sleep with their descriptors, and the device has completed the second request first. -/
theorem virtio_requests_two : ∃ s : VirtioSession Bool Nat,
    (virtioSystem ⟨fun _ => 0, fun _ => 0, fun _ => 0, fun _ => 0⟩).Reachable s ∧
      s.pc false = .sleepingBuf 5 ⟨0, 1, 2⟩ ∧ s.pc true = .sleepingBuf 7 ⟨3, 4, 5⟩ ∧ s.flight.completed = [3] ∧
      (s.disk.hasUsed ↔ s.flight.processed ≠ s.flight.completed) := by
  let at_ : BufLayout Bool Nat := ⟨fun _ => 0, fun _ => 0, fun _ => 0, fun _ => 0⟩
  let start : VirtioSession Bool Nat :=
    ⟨freshVirtioDisk, fun _ => ⟨0, 0, 0⟩, fun _ => false, none, fun _ => .outside, ⟨[], [], [], [], []⟩⟩
  have run : (virtioSystem at_).Reachable start :=
    .initial ⟨fun _ _ => rfl, rfl, rfl, rfl, rfl, rfl, fun _ => rfl, rfl⟩
  have run := run.step trivial (@VirtioSession.Step.call _ _ _ _ at_ start false 5 true rfl (by decide))
  have run := run.step trivial (@VirtioSession.Step.acquire _ _ _ _ at_ _ false 5 true rfl rfl)
  have run := run.step trivial (@VirtioSession.Step.alloc _ _ _ _ at_ _ false 5 true ⟨0, 1, 2⟩ _ rfl rfl)
  have run := run.step trivial (@VirtioSession.Step.format _ _ _ _ at_ _ false 5 true ⟨0, 1, 2⟩ rfl)
  have run := run.step trivial (@VirtioSession.Step.store _ _ _ _ at_ _ false 5 ⟨0, 1, 2⟩ rfl)
  have run := run.step trivial (@VirtioSession.Step.publish _ _ _ _ at_ _ false 5 ⟨0, 1, 2⟩ rfl)
  have run := run.step trivial (@VirtioSession.Step.sleepBuf _ _ _ _ at_ _ false 5 ⟨0, 1, 2⟩ rfl rfl)
  have run := run.step trivial (@VirtioSession.Step.call _ _ _ _ at_ _ true 7 false rfl (by decide))
  have run := run.step trivial (@VirtioSession.Step.acquire _ _ _ _ at_ _ true 7 false rfl rfl)
  have run := run.step trivial (@VirtioSession.Step.alloc _ _ _ _ at_ _ true 7 false ⟨3, 4, 5⟩ _ rfl rfl)
  have run := run.step trivial (@VirtioSession.Step.format _ _ _ _ at_ _ true 7 false ⟨3, 4, 5⟩ rfl)
  have run := run.step trivial (@VirtioSession.Step.store _ _ _ _ at_ _ true 7 ⟨3, 4, 5⟩ rfl)
  have run := run.step trivial (@VirtioSession.Step.publish _ _ _ _ at_ _ true 7 ⟨3, 4, 5⟩ rfl)
  have run := run.step trivial (@VirtioSession.Step.sleepBuf _ _ _ _ at_ _ true 7 ⟨3, 4, 5⟩ rfl rfl)
  have run := run.step trivial (@VirtioSession.Step.fetch _ _ _ _ at_ _ (by decide))
  have run := run.step trivial (@VirtioSession.Step.fetch _ _ _ _ at_ _ (by decide))
  have run := run.step trivial (@VirtioSession.Step.complete _ _ _ _ at_ _ 3 0 (by decide))
  exact ⟨_, run, rfl, rfl, rfl, (virtio_requests run).2.2.2.2.1⟩

end Riscv2os.Xv7
