import Riscv2os.Std.RingBuffer
import Riscv2os.Std.TransitionSystem
import Riscv2os.Std.Virtqueue

/-!
# The virtio disk driver of mini-riscv-os

`virtio.c` of `10-SystemCall`. Any number of tasks are in `virtio_disk_rw`, which holds the lock of the
disk up to its end and waits for `virtio_disk_isr` in a loop; the handler does not take the lock, so
its rounds come between any two steps. The device fetches heads from the available ring,
completes fetched chains in any order, and writes a status. A step of a task is the code between two
points where it matters what the others see.
-/

namespace Riscv2os.MiniRiscvOs

open Riscv2os.Std
open Virtqueue

/-- The number of descriptors. -/
abbrev NUM : Nat := 8

def BSIZE : Nat := 512

def VIRTIO_BLK_T_IN : BitVec 32 := 0

def VIRTIO_BLK_T_OUT : BitVec 32 := 1

/-- `virtio_blk_req_t` -/
structure VirtioBlkReq where
  type : BitVec 32
  reserved : BitVec 32
  sector : BitVec 64

/-- An element of `disk.info`. -/
structure DiskInfo (B : Type) where
  b : Option B
  status : BitVec 8

/-- `struct disk`. The reader of the available ring is the device, and the one of the used ring is the
driver, with `disk.used_idx`. -/
structure Disk (B : Type) where
  table : DescTable
  avail : RingBuffer Nat NUM 16
  used : RingBuffer Nat NUM 16
  info : Nat → DiskInfo B
  ops : Nat → VirtioBlkReq

/-- The block numbers, and where things are in memory. -/
structure BlockLayout (B : Type) where
  blockno : B → BitVec 32
  data : B → BitVec 64
  ops : Nat → BitVec 64
  status : Nat → BitVec 64

/-- What `free_desc` leaves of a descriptor. -/
def zeroDesc (_ : Desc) : Desc := ⟨0, 0, 0, 0⟩

/-- `alloc_desc` -/
def allocDesc (t : DescTable) : Option (Nat × DescTable) := t.alloc NUM

/-- `free_desc`. There is no result where it panics. -/
def freeDesc (t : DescTable) (i : Nat) : Option DescTable := t.release NUM zeroDesc i

/-- `free_chain`, which reads the link of a descriptor before it frees it. There is no result where it
panics. -/
def freeChain : Nat → Nat → DescTable → Option DescTable
  | 0, _, _ => none
  | fuel + 1, i, t =>
      let flag := (t.desc i).flags
      let nxt := (t.desc i).next.toNat
      match freeDesc t i with
      | none => none
      | some t => if flag &&& F_NEXT ≠ 0 then freeChain fuel nxt t else some t

/-- `alloc3_desc` -/
def alloc3Desc (t : DescTable) : Option (Option Chain × DescTable) := t.alloc3 NUM zeroDesc

namespace Disk

variable {B : Type}

/-- Format the three descriptors, and record the block. -/
def format (d : Disk B) (at_ : BlockLayout B) (b : B) (write : Bool) (idx : Chain) : Disk B :=
  let sector := (at_.blockno b).setWidth 64 * BitVec.ofNat 64 (BSIZE / 512)
  { d with
    ops := Function.update d.ops idx.first
      ⟨if write then VIRTIO_BLK_T_OUT else VIRTIO_BLK_T_IN, 0, sector⟩
    table := { d.table with
      desc := linkDesc d.table.desc idx (at_.ops idx.first) (at_.data b) (at_.status idx.first) 16
        (BitVec.ofNat 32 BSIZE) write }
    info := Function.update d.info idx.first ⟨some b, 0⟩ }

end Disk

/-- Where a task is in `virtio_disk_rw`. -/
inductive RwPoint (B : Type) where
  | outside
  /-- At `lock_acquire`. -/
  | locking (b : B) (write : Bool)
  /-- At `alloc3_desc`. -/
  | allocating (b : B) (write : Bool)
  /-- It has its descriptors. -/
  | allocated (b : B) (write : Bool) (idx : Chain)
  /-- They are formatted. -/
  | formatted (b : B) (idx : Chain)
  /-- The head is in the available ring, which does not count it yet. -/
  | stored (b : B) (idx : Chain)
  /-- In the loop that waits for the block. -/
  | waiting (b : B) (idx : Chain)
  /-- At `lock_free`. -/
  | unlocking

/-- The request of a task. -/
def RwPoint.request {B : Type} : RwPoint B → Option (Request B)
  | allocated b _ idx => some ⟨idx, b, .taken⟩
  | formatted b idx => some ⟨idx, b, .prepared⟩
  | stored b idx => some ⟨idx, b, .prepared⟩
  | waiting b idx => some ⟨idx, b, .submitted⟩
  | _ => none

/-- The task has the lock. -/
def RwPoint.Locked {B : Type} : RwPoint B → Prop
  | outside => False
  | locking _ _ => False
  | _ => True

/-- The disk with the tasks and the device. `busy` is the field `disk` of the blocks, and `flight` records
what goes through the rings. -/
structure DiskSession (P B : Type) where
  disk : Disk B
  busy : B → Bool
  lock : Option P
  point : P → RwPoint B
  flight : Flight

/-- Who does a step. -/
inductive DiskEvent (P : Type) where
  | task (p : P)
  | device
  | isr

section Session

variable {P B : Type} [DecidableEq P] [DecidableEq B]

/-- A step of a task, of the device or of the handler. -/
inductive DiskSession.Step (at_ : BlockLayout B) : DiskSession P B → DiskEvent P → DiskSession P B → Prop where
  | call {s : DiskSession P B} {p : P} {b : B} {write : Bool} (outside : s.point p = .outside) :
      Step at_ s (.task p) { s with point := Function.update s.point p (.locking b write) }
  | acquire {s : DiskSession P B} {p : P} {b : B} {write : Bool} (locking : s.point p = .locking b write)
      (free : s.lock = none) :
      Step at_ s (.task p) { s with
        lock := some p, point := Function.update s.point p (.allocating b write) }
  | alloc {s : DiskSession P B} {p : P} {b : B} {write : Bool} {idx : Chain} {t : DescTable}
      (allocating : s.point p = .allocating b write) (ran : alloc3Desc s.disk.table = some (some idx, t)) :
      Step at_ s (.task p) { s with
        disk := { s.disk with table := t }
        point := Function.update s.point p (.allocated b write idx) }
  /-- `alloc3_desc` returns -1. -/
  | again {s : DiskSession P B} {p : P} {b : B} {write : Bool} {t : DescTable}
      (allocating : s.point p = .allocating b write) (ran : alloc3Desc s.disk.table = some (none, t)) :
      Step at_ s (.task p) { s with disk := { s.disk with table := t } }
  | format {s : DiskSession P B} {p : P} {b : B} {write : Bool} {idx : Chain}
      (allocated : s.point p = .allocated b write idx) :
      Step at_ s (.task p) { s with
        disk := s.disk.format at_ b write idx
        busy := Function.update s.busy b true
        point := Function.update s.point p (.formatted b idx) }
  /-- `disk.avail->ring[disk.avail->idx % NUM] = idx[0]` -/
  | store {s : DiskSession P B} {p : P} {b : B} {idx : Chain} (formatted : s.point p = .formatted b idx) :
      Step at_ s (.task p) { s with
        disk := { s.disk with avail := s.disk.avail.store idx.first }
        point := Function.update s.point p (.stored b idx) }
  /-- `disk.avail->idx += 1`, and the device is notified. -/
  | publish {s : DiskSession P B} {p : P} {b : B} {idx : Chain} (stored : s.point p = .stored b idx) :
      Step at_ s (.task p) { s with
        disk := { s.disk with avail := s.disk.avail.count }
        flight := s.flight.publish idx.first
        point := Function.update s.point p (.waiting b idx) }
  /-- The block is there. -/
  | finish {s : DiskSession P B} {p : P} {b : B} {idx : Chain} {t : DescTable}
      (waiting : s.point p = .waiting b idx) (heard : s.busy b = false)
      (ran : freeChain (NUM + 1) idx.first s.disk.table = some t) :
      Step at_ s (.task p) { s with
        disk := { s.disk with
          table := t
          info := Function.update s.disk.info idx.first { s.disk.info idx.first with b := none } }
        point := Function.update s.point p .unlocking }
  | unlock {s : DiskSession P B} {p : P} (unlocking : s.point p = .unlocking) :
      Step at_ s (.task p) { s with lock := none, point := Function.update s.point p .outside }
  | fetch {s : DiskSession P B} (more : s.disk.avail.nread ≠ s.disk.avail.nwrite) :
      Step at_ s .device { s with
        disk := { s.disk with avail := s.disk.avail.pop }
        flight := s.flight.fetch s.disk.avail.front }
  | complete {s : DiskSession P B} {id : Nat} {status : BitVec 8} (pending : id ∈ s.flight.pending) :
      Step at_ s .device { s with
        disk := { s.disk with
          used := s.disk.used.push id
          info := Function.update s.disk.info id { s.disk.info id with status := status } }
        flight := s.flight.complete id }
  /-- A round of `virtio_disk_isr` that does not panic. -/
  | isr {s : DiskSession P B} {b : B} (more : s.disk.used.nread ≠ s.disk.used.nwrite)
      (status : (s.disk.info s.disk.used.front).status = 0)
      (block : (s.disk.info s.disk.used.front).b = some b) :
      Step at_ s .isr { s with
        disk := { s.disk with used := s.disk.used.pop }
        busy := Function.update s.busy b false
        flight := s.flight.process s.disk.used.front }

/-- The sessions after `virtio_disk_init`. -/
def diskSystem (P : Type) [DecidableEq P] (at_ : BlockLayout B) :
    TransitionSystem (DiskSession P B) (DiskEvent P) where
  Initial s := (∀ i < NUM, s.disk.table.free i = true) ∧ s.disk.avail.nread = 0 ∧ s.disk.avail.nwrite = 0 ∧
    s.disk.used.nread = 0 ∧ s.disk.used.nwrite = 0 ∧ s.lock = none ∧ (∀ p, s.point p = .outside) ∧
    s.flight = ⟨[], [], [], [], []⟩
  Step := DiskSession.Step at_

end Session

/-- What a session is to the library. -/
def DiskSession.toQueue {P B : Type} (s : DiskSession P B) : Queue P B where
  desc := s.disk.table.desc
  free := s.disk.table.free
  info := fun i => (s.disk.info i).b
  disk := s.busy
  flight := s.flight
  req := fun p => (s.point p).request

/-- What holds in every state of a session. -/
structure DiskSession.Sound {P B : Type} (s : DiskSession P B) : Prop where
  queue : s.toQueue.Sound NUM
  locked : ∀ p, (s.point p).Locked → s.lock = some p
  avail : s.disk.avail.Holds s.flight.published s.flight.fetched
  used : s.disk.used.Holds s.flight.completed s.flight.processed
  stored : ∀ p b idx, s.point p = .stored b idx →
    s.disk.avail.data (RingBuffer.place NUM s.disk.avail.nwrite) = idx.first

section Chains

variable {t : DescTable} {c : Chain}

/-- `free_chain` frees the three descriptors of a linked chain and no others. -/
theorem freeChain_linked (linked : Linked t.desc c) (nodup : c.toList.Nodup)
    (used : ∀ d ∈ c.toList, d < NUM ∧ t.free d = false) (fuel : Nat) :
    ∃ t', freeChain (fuel + 3) c.first t = some t' ∧
      (∀ d, t'.free d = true ↔ t.free d = true ∨ d ∈ c.toList) ∧ ∀ d, d ∉ c.toList → t'.desc d = t.desc d := by
  obtain ⟨t1, t2, t3, step1, step2, step3, desc1, desc2, _, _, _, free, desc⟩ :=
    @DescTable.release_three NUM zeroDesc t c nodup used
  refine ⟨t3, ?_, free, desc⟩
  simp only [freeChain, freeDesc, step1, linked.toSecond, step2, desc1, linked.toThird, step3, desc2]
  rw [if_pos linked.first, if_pos linked.second, if_neg (not_not.mpr linked.third)]

end Chains

namespace DiskSession

variable {P B : Type} {s s' : DiskSession P B} {p p' : P}

namespace Sound

/-- Neither ring is full. -/
theorem room (sound : s.Sound) :
    s.flight.published.length < s.flight.fetched.length + NUM ∧
      s.flight.completed.length < s.flight.processed.length + NUM := by
  have bound : 3 * s.flight.outstanding.length ≤ NUM := sound.queue.three_mul_length_le
  simp only [Flight.outstanding, List.length_append, List.length_drop] at bound
  simp only [NUM] at bound ⊢
  omega

/-- Only the task that has the lock has a request. -/
theorem alone (sound : s.Sound) (locked : (s.point p).Locked) (locked' : (s.point p').Locked) : p' = p :=
  Option.some.inj ((sound.locked p' locked').symm.trans (sound.locked p locked))

theorem locked_of_request {point : RwPoint B} {r : Request B} (holds : point.request = some r) :
    point.Locked := by
  cases point with
  | outside => cases holds
  | locking => cases holds
  | _ => trivial

theorem divides : NUM ∣ 2 ^ 16 := ⟨8192, by decide⟩

/-- No other task is where it needs the lock. -/
theorem mine (sound : s.Sound) {x : RwPoint B} (is : s.point p = x) (locked : x.Locked) (p' : P)
    (locked' : (s.point p').Locked) : p' = p :=
  sound.alone (by rw [is]; exact locked) locked'

theorem owns (sound : s.Sound) {x : RwPoint B} (is : s.point p = x) (locked : x.Locked) : s.lock = some p :=
  sound.locked p (by rw [is]; exact locked)

theorem request_at {x : RwPoint B} (is : s.point p = x) : s.toQueue.req p = x.request := congrArg RwPoint.request is

/-- It finds fewer, and leaves all that are free as they were. -/
theorem again (sound : s.Sound) {t : DescTable} (ran : alloc3Desc s.disk.table = some (none, t)) :
    Sound { s with disk := { s.disk with table := t } } := by
  obtain ⟨result, t', ran', desc, failed, _⟩ := DescTable.alloc3_spec NUM zeroDesc s.disk.table
  cases Option.some.inj (ran'.symm.trans ran)
  have queue := sound.queue.rewrite desc
  refine ⟨?_, sound.locked, sound.avail, sound.used, sound.stored⟩
  rw [DiskSession.toQueue]
  dsimp only
  rw [failed rfl]
  exact queue

/-- The device takes a request from the available ring. -/
theorem fetch (sound : s.Sound) (more : s.disk.avail.nread ≠ s.disk.avail.nwrite) :
    Sound { s with
      disk := { s.disk with avail := s.disk.avail.pop }
      flight := s.flight.fetch s.disk.avail.front } := by
  have short : NUM < 2 ^ 16 := by decide
  obtain ⟨room, _⟩ := sound.room
  have more : s.flight.fetched.length < s.flight.published.length := by
    have le := sound.avail.order.length_le
    have differ := (sound.avail.empty_iff short).not.mp more
    omega
  exact ⟨sound.queue.reorder (Flight.outstanding_fetch more (sound.avail.front_eq divides more).symm),
    sound.locked, sound.avail.pop divides more, sound.used, sound.stored⟩

/-- The device answers a request, whichever it likes. -/
theorem complete (sound : s.Sound) {id : Nat} {status : BitVec 8} (pending : id ∈ s.flight.pending) :
    Sound { s with
      disk := { s.disk with
        used := s.disk.used.push id
        info := Function.update s.disk.info id { s.disk.info id with status := status } }
      flight := s.flight.complete id } := by
  have info : (fun i => (Function.update s.disk.info id
      { s.disk.info id with status := status } i).b) = s.toQueue.info :=
    (Function.comp_update DiskInfo.b s.disk.info id _).trans (Function.update_eq_self id s.toQueue.info)
  refine ⟨?_, sound.locked, sound.avail, sound.used.push divides sound.room.2 id, sound.stored⟩
  rw [DiskSession.toQueue]
  dsimp only
  rw [info]
  exact sound.queue.reorder (Flight.outstanding_complete sound.used.order.length_le pending)

variable [DecidableEq P]

theorem request_update (x : RwPoint B) : (fun p' => (Function.update s.point p x p').request) =
    Function.update s.toQueue.req p x.request :=
  Function.comp_update RwPoint.request s.point p x

/-- The task that has the lock, or takes it, goes on. -/
theorem task {disk : Disk B} {busy : B → Bool} {lock : Option P} {x : RwPoint B}
    {flight : Flight} (mine : ∀ p', (s.point p').Locked → p' = p) (lock' : x.Locked → lock = some p)
    (queue : Queue.Sound NUM ⟨disk.table.desc, disk.table.free, fun i => (disk.info i).b, busy, flight,
      Function.update s.toQueue.req p x.request⟩)
    (avail : disk.avail.Holds flight.published flight.fetched)
    (used : disk.used.Holds flight.completed flight.processed)
    (stored : ∀ b idx, x = .stored b idx →
      disk.avail.data (RingBuffer.place NUM disk.avail.nwrite) = idx.first) :
    Sound ⟨disk, busy, lock, Function.update s.point p x, flight⟩ := by
  have only : ∀ p', (Function.update s.point p x p').Locked → p' = p ∧ x.Locked := fun p' locked => by
    by_cases is : p' = p
    · rw [is, Function.update_self] at locked
      exact ⟨is, locked⟩
    · rw [Function.update_of_ne is] at locked
      exact absurd (mine p' locked) is
  refine ⟨?_, fun p' locked => ?_, avail, used, fun p' b idx at_ => ?_⟩
  · rw [← request_update] at queue
    exact queue
  · obtain ⟨is, locked⟩ := only p' locked
    rw [is]
    exact lock' locked
  · have at_ : Function.update s.point p x p' = .stored b idx := at_
    obtain ⟨is, _⟩ := only p' (by rw [at_]; trivial)
    rw [is, Function.update_self] at at_
    exact stored b idx at_

theorem initial [DecidableEq B] {at_ : BlockLayout B} (started : (diskSystem P at_).Initial s) : s.Sound := by
  obtain ⟨free, availRead, availWrite, usedRead, usedWrite, _, outside, flight⟩ := started
  have empty : ∀ {ring : RingBuffer Nat NUM 16}, ring.nread = 0 → ring.nwrite = 0 → ring.Holds [] [] :=
    fun {ring} read write => by
      obtain ⟨data, nread, nwrite⟩ := ring
      cases read
      cases write
      exact RingBuffer.Holds.empty
  refine ⟨Queue.Sound.empty free (fun p => ?_) (by show s.flight.outstanding = []; rw [flight]; rfl),
    fun p locked => ?_, ?_, ?_, fun p b idx stored => ?_⟩
  · show (s.point p).request = none
    rw [outside p]
    rfl
  · rw [outside p] at locked
    exact locked.elim
  · rw [flight]
    exact empty availRead availWrite
  · rw [flight]
    exact empty usedRead usedWrite
  · rw [outside p] at stored
    cases stored

theorem request_keep {x : RwPoint B} (y : RwPoint B) (is : s.point p = x) (same : y.request = x.request) :
    Function.update s.toQueue.req p y.request = s.toQueue.req := by
  rw [same, ← request_at is, Function.update_eq_self]

/-- A task takes the lock or gives it up, and its request stays as it is. -/
theorem moved (sound : s.Sound) {x y : RwPoint B} {lock : Option P} (is : s.point p = x)
    (mine : ∀ p', (s.point p').Locked → p' = p) (lock' : y.Locked → lock = some p)
    (same : y.request = x.request) (stored : ∀ b idx, y ≠ .stored b idx) :
    Sound { s with lock := lock, point := Function.update s.point p y } := by
  refine task mine lock' ?_ sound.avail sound.used fun b idx at_ => absurd at_ (stored b idx)
  rw [request_keep y is same]
  exact sound.queue

/-- `virtio_disk_rw` is called. -/
theorem call (sound : s.Sound) {b : B} {write : Bool} (outside : s.point p = .outside) :
    Sound { s with point := Function.update s.point p (.locking b write) } := by
  have locked : ∀ p', (Function.update s.point p (.locking b write) p').Locked → (s.point p').Locked := by
    intro p' locked
    by_cases is : p' = p
    · rw [is, Function.update_self] at locked
      exact locked.elim
    · rwa [Function.update_of_ne is] at locked
  refine ⟨?_, fun p' locked' => sound.locked p' (locked p' locked'), sound.avail, sound.used,
    fun p' b' idx stored => ?_⟩
  · have queue := sound.queue
    rw [DiskSession.toQueue, request_update, request_keep (.locking b write) outside rfl]
    exact queue
  · have stored : Function.update s.point p (.locking b write) p' = .stored b' idx := stored
    by_cases is : p' = p
    · rw [is, Function.update_self] at stored
      cases stored
    · rw [Function.update_of_ne is] at stored
      exact sound.stored p' b' idx stored

/-- `alloc3_desc` finds three free descriptors. -/
theorem alloc (sound : s.Sound) {b : B} {write : Bool} {idx : Chain} {t : DescTable}
    (allocating : s.point p = .allocating b write) (ran : alloc3Desc s.disk.table = some (some idx, t)) :
    Sound { s with
      disk := { s.disk with table := t }
      point := Function.update s.point p (.allocated b write idx) } := by
  obtain ⟨result, t', ran', desc, _, done⟩ := DescTable.alloc3_spec NUM zeroDesc s.disk.table
  cases Option.some.inj (ran'.symm.trans ran)
  obtain ⟨nodup, wasFree, free⟩ := done idx rfl
  have idle : s.toQueue.req p = none := request_at allocating
  have others : ∀ p' r, s.toQueue.req p' = some r → r.buf ≠ b := fun p' r holds => by
    have is := sound.mine allocating trivial p' (locked_of_request holds)
    rw [is, idle] at holds
    cases holds
  exact task (sound.mine allocating trivial) (fun _ => sound.owns allocating trivial)
    ((sound.queue.rewrite desc).take idle nodup wasFree free others) sound.avail sound.used
    fun b idx at_ => by cases at_

/-- The chain is filled in. -/
theorem format [DecidableEq B] (at_ : BlockLayout B) (sound : s.Sound) {b : B} {write : Bool} {idx : Chain}
    (allocated : s.point p = .allocated b write idx) :
    Sound { s with
      disk := s.disk.format at_ b write idx
      busy := Function.update s.busy b true
      point := Function.update s.point p (.formatted b idx) } := by
  have short : NUM < 2 ^ 16 := by decide
  have holds := request_at allocated
  have small : ∀ d ∈ idx.toList, d < 2 ^ 16 := fun d member =>
    (sound.queue.inside p _ holds d member).1.trans short
  refine task (sound.mine allocated trivial) (fun _ => sound.owns allocated trivial) ?_
    sound.avail sound.used fun b idx at_ => by cases at_
  have info : (fun i => (Function.update s.disk.info idx.first ⟨some b, 0⟩ i).b) =
      Function.update s.toQueue.info idx.first (some b) :=
    Function.comp_update DiskInfo.b s.disk.info idx.first _
  rw [Disk.format]
  dsimp only
  rw [info]
  exact sound.queue.prepare holds (linked_linkDesc (sound.queue.distinct p _ holds) small)
    fun d outside => linkDesc_outside outside

/-- The element of the available ring is written, and not yet counted. -/
theorem store (sound : s.Sound) {b : B} {idx : Chain} (formatted : s.point p = .formatted b idx) :
    Sound { s with
      disk := { s.disk with avail := s.disk.avail.store idx.first }
      point := Function.update s.point p (.stored b idx) } := by
  refine task (sound.mine formatted trivial) (fun _ => sound.owns formatted trivial) ?_
    (sound.avail.store divides sound.room.1 _) sound.used fun b' idx' at_ => ?_
  · rw [request_keep (.stored b idx) formatted rfl]
    exact sound.queue
  · cases at_
    exact Function.update_self ..

/-- It is counted. -/
theorem publish (sound : s.Sound) {b : B} {idx : Chain} (stored : s.point p = .stored b idx) :
    Sound { s with
      disk := { s.disk with avail := s.disk.avail.count }
      flight := s.flight.publish idx.first
      point := Function.update s.point p (.waiting b idx) } :=
  task (sound.mine stored trivial) (fun _ => sound.owns stored trivial)
    (sound.queue.publish (request_at stored) (Flight.outstanding_publish sound.avail.order.length_le))
    (sound.avail.count divides sound.room.1 (sound.stored p b idx stored)) sound.used
    fun b idx at_ => by cases at_

/-- `free_chain` frees the descriptors of a request that has finished. -/
theorem finish [DecidableEq B] (sound : s.Sound) {b : B} {idx : Chain} {t : DescTable}
    (waiting : s.point p = .waiting b idx) (heard : s.busy b = false)
    (ran : freeChain (NUM + 1) idx.first s.disk.table = some t) :
    Sound { s with
      disk := { s.disk with
        table := t
        info := Function.update s.disk.info idx.first { s.disk.info idx.first with b := none } }
      point := Function.update s.point p .unlocking } := by
  have holds := request_at waiting
  obtain ⟨t', ran', free, desc⟩ := freeChain_linked (sound.queue.linked p _ holds (by simp)).1
    (sound.queue.distinct p _ holds) (sound.queue.inside p _ holds) 6
  cases Option.some.inj (ran'.symm.trans ran)
  have info : (fun i => (Function.update s.disk.info idx.first
      { s.disk.info idx.first with b := none } i).b) = Function.update s.toQueue.info idx.first none :=
    Function.comp_update DiskInfo.b s.disk.info idx.first _
  refine task (sound.mine waiting trivial) (fun _ => sound.owns waiting trivial) ?_
    sound.avail sound.used fun b idx at_ => by cases at_
  rw [info]
  exact sound.queue.release holds rfl heard free desc

/-- `virtio_disk_isr` takes an element of the used ring. -/
theorem isr [DecidableEq B] (sound : s.Sound) {b : B} (more : s.disk.used.nread ≠ s.disk.used.nwrite)
    (block : (s.disk.info s.disk.used.front).b = some b) :
    Sound { s with
      disk := { s.disk with used := s.disk.used.pop }
      busy := Function.update s.busy b false
      flight := s.flight.process s.disk.used.front } := by
  have short : NUM < 2 ^ 16 := by decide
  obtain ⟨_, room⟩ := sound.room
  have more : s.flight.processed.length < s.flight.completed.length := by
    have le := sound.used.order.length_le
    have differ := (sound.used.empty_iff short).not.mp more
    omega
  have next := (sound.used.front_eq divides more).symm
  obtain ⟨p, r, holds, stage, first⟩ := sound.queue.known _ (Flight.mem_outstanding more next)
  have recorded := (sound.queue.linked p r holds (by rw [stage]; simp)).2
  rw [first] at recorded
  cases block.symm.trans recorded
  have perm := Flight.outstanding_process more next
  rw [← first] at perm
  rw [← first]
  exact ⟨sound.queue.process holds perm, sound.locked, sound.avail, first ▸ sound.used.pop divides more,
    sound.stored⟩

/-- Every step keeps the session sound. -/
theorem step [DecidableEq B] {at_ : BlockLayout B} {e : DiskEvent P} (sound : s.Sound)
    (step : Step at_ s e s') : s'.Sound := by
  cases step with
  | call outside => exact sound.call outside
  | @acquire p b write locking free =>
      refine sound.moved locking (fun p' locked => ?_) (fun _ => rfl) rfl nofun
      rw [sound.locked p' locked] at free
      cases free
  | alloc allocating ran => exact sound.alloc allocating ran
  | again allocating ran => exact sound.again ran
  | format allocated => exact sound.format at_ allocated
  | store formatted => exact sound.store formatted
  | publish stored => exact sound.publish stored
  | finish waiting heard ran => exact sound.finish waiting heard ran
  | unlock unlocking => exact sound.moved unlocking (sound.mine unlocking trivial) (fun locked => locked.elim) rfl nofun
  | fetch more => exact sound.fetch more
  | complete pending => exact sound.complete pending
  | isr more status block => exact sound.isr more block

theorem inductive_ [DecidableEq B] {at_ : BlockLayout B} :
    (diskSystem P at_).Inductive (fun _ _ => True) Sound where
  initial := initial
  preserved := fun sound _ => sound.step

end Sound

theorem waiting_of_submitted {point : RwPoint B} {r : Request B} (holds : point.request = some r)
    (stage : r.stage = .submitted) : point = .waiting r.buf r.chain := by
  cases point with
  | waiting b idx =>
      cases holds
      rfl
  | outside => cases holds
  | locking => cases holds
  | allocating => cases holds
  | unlocking => cases holds
  | allocated =>
      cases holds
      cases stage
  | formatted =>
      cases holds
      cases stage
  | stored =>
      cases holds
      cases stage

/-- The next element of the used ring is the head of a task that waits. -/
theorem Sound.next (sound : s.Sound) (more : s.disk.used.nread ≠ s.disk.used.nwrite) :
    ∃ p b idx, s.point p = .waiting b idx ∧ idx.first = s.disk.used.front ∧
      (s.disk.info s.disk.used.front).b = some b ∧ s.busy b = true := by
  have more : s.flight.processed.length < s.flight.completed.length := by
    have le := sound.used.order.length_le
    have differ := (sound.used.empty_iff (by decide)).not.mp more
    omega
  have next := (sound.used.front_eq ⟨8192, by decide⟩ more).symm
  have member := Flight.mem_outstanding more next
  obtain ⟨p, r, holds, stage, first⟩ := sound.queue.known _ member
  have recorded := (sound.queue.linked p r holds (by rw [stage]; simp)).2
  rw [first] at recorded
  refine ⟨p, r.buf, r.chain, waiting_of_submitted holds stage, first, recorded, ?_⟩
  exact (sound.queue.submitted p r holds stage).mpr (first ▸ member)

end DiskSession

open DiskSession in
/-- In every session each descriptor is free or belongs to one request; `alloc3_desc` does not panic and
leaves all free descriptors free where it fails; `free_chain` does not panic and frees the
descriptors of its request; and each round of the handler takes the next element of the used
ring and clears the flag of the block whose request has that head. -/
theorem disk_requests {P B : Type} [DecidableEq P] [DecidableEq B] {at_ : BlockLayout B}
    {s : DiskSession P B} (run : (diskSystem P at_).Reachable s) :
    (∀ d < NUM,
      (s.disk.table.free d = true ∧ ∀ p r, (s.point p).request = some r → d ∉ r.chain.toList) ∨
      (s.disk.table.free d = false ∧
        ∃ p r, ((s.point p).request = some r ∧ d ∈ r.chain.toList) ∧
          ∀ p' r', (s.point p').request = some r' → d ∈ r'.chain.toList → p' = p)) ∧
    (∀ t, ∃ result t', alloc3Desc t = some (result, t') ∧ (result = none → t'.free = t.free)) ∧
    (∀ p b idx, s.point p = .waiting b idx →
      ∃ t, freeChain (NUM + 1) idx.first s.disk.table = some t ∧
        ∀ d, t.free d = true ↔ s.disk.table.free d = true ∨ d ∈ idx.toList) ∧
    (s.flight.processed <+: s.flight.completed ∧
      (s.disk.used.nread = s.disk.used.nwrite ↔ s.flight.processed.length = s.flight.completed.length) ∧
      (s.disk.used.nread ≠ s.disk.used.nwrite → ∃ p b idx, s.point p = .waiting b idx ∧
        idx.first = s.disk.used.front ∧ (s.disk.info s.disk.used.front).b = some b ∧ s.busy b = true ∧
        ∀ s', Step at_ s .isr s' → s'.busy = Function.update s.busy b false)) := by
  have sound : s.Sound := run.invariant Sound.inductive_
  refine ⟨fun d small => sound.queue.owner small, fun t => ?_, fun p b idx waiting => ?_,
    sound.used.order, sound.used.empty_iff (by decide), fun more => ?_⟩
  · obtain ⟨result, t', ran, _, failed, _⟩ := DescTable.alloc3_spec NUM zeroDesc t
    exact ⟨result, t', ran, failed⟩
  · have holds : s.toQueue.req p = some ⟨idx, b, .submitted⟩ := congrArg RwPoint.request waiting
    obtain ⟨t, ran, free, _⟩ := freeChain_linked (sound.queue.linked p _ holds (by simp)).1
      (sound.queue.distinct p _ holds) (sound.queue.inside p _ holds) 6
    exact ⟨t, ran, free⟩
  · obtain ⟨p, b, idx, waiting, first, block, busy⟩ := sound.next more
    refine ⟨p, b, idx, waiting, first, block, busy, fun s' step => ?_⟩
    cases step with
    | isr _ _ block' =>
        cases block.symm.trans block'
        rfl

/-- A disk with free descriptors and empty rings. -/
def freshDisk : Disk Nat :=
  ⟨⟨fun _ => ⟨0, 0, 0, 0⟩, fun _ => true⟩, ⟨fun _ => 0, 0, 0⟩, ⟨fun _ => 0, 0, 0⟩, fun _ => ⟨none, 0⟩,
    fun _ => ⟨0, 0, 0⟩⟩

/-- One task has submitted a request for block 5, and the device has completed it. -/
theorem disk_requests_completed : ∃ s : DiskSession Nat Nat,
    (diskSystem Nat ⟨fun _ => 0, fun _ => 0, fun _ => 0, fun _ => 0⟩).Reachable s ∧
      s.disk.used.nread ≠ s.disk.used.nwrite ∧
      ∃ p b idx, s.point p = .waiting b idx ∧ idx.first = s.disk.used.front ∧
        (s.disk.info s.disk.used.front).b = some b ∧ s.busy b = true := by
  let at_ : BlockLayout Nat := ⟨fun _ => 0, fun _ => 0, fun _ => 0, fun _ => 0⟩
  let start : DiskSession Nat Nat :=
    ⟨freshDisk, fun _ => false, none, fun _ => .outside, ⟨[], [], [], [], []⟩⟩
  have run : (diskSystem Nat at_).Reachable start :=
    .initial ⟨fun _ _ => rfl, rfl, rfl, rfl, rfl, rfl, fun _ => rfl, rfl⟩
  have run := run.step trivial (@DiskSession.Step.call _ _ _ _ at_ start 0 5 true rfl)
  have run := run.step trivial (@DiskSession.Step.acquire _ _ _ _ at_ _ 0 5 true rfl rfl)
  have run := run.step trivial (@DiskSession.Step.alloc _ _ _ _ at_ _ 0 5 true ⟨0, 1, 2⟩ _ rfl rfl)
  have run := run.step trivial (@DiskSession.Step.format _ _ _ _ at_ _ 0 5 true ⟨0, 1, 2⟩ rfl)
  have run := run.step trivial (@DiskSession.Step.store _ _ _ _ at_ _ 0 5 ⟨0, 1, 2⟩ rfl)
  have run := run.step trivial (@DiskSession.Step.publish _ _ _ _ at_ _ 0 5 ⟨0, 1, 2⟩ rfl)
  have run := run.step trivial (@DiskSession.Step.fetch _ _ _ _ at_ _ (by decide))
  have run := run.step trivial (@DiskSession.Step.complete _ _ _ _ at_ _ 0 0 (by decide))
  have more := (disk_requests run).2.2.2.2.2 (by decide)
  refine ⟨_, run, by decide, ?_⟩
  obtain ⟨p, b, idx, waiting, first, block, busy, _⟩ := more
  exact ⟨p, b, idx, waiting, first, block, busy⟩

end Riscv2os.MiniRiscvOs
