import Riscv2os.Std.RingBuffer
import Riscv2os.Std.TransitionSystem
import Riscv2os.Xv7.Kernel

/-!
# Pipes

`pipe.c`: one pipe, and any number of threads inside `pipewrite` and `piperead`. A thread
holds `pi->lock` but while it sleeps, so one step is the code between two points where
other threads may get the lock, or one round of a copying loop. `copyin` and `copyout`
are the user's memory: whether a byte of it is mapped and what it holds is part of the
label.
-/

namespace Riscv2os.Xv7

open Riscv2os.Std

/-- Bytes of a pipe. -/
abbrev PIPESIZE : Nat := 512

/-- `struct pipe` without its lock. -/
structure Pipe where
  ring : RingBuffer UInt8 PIPESIZE 32
  readopen : Bool
  writeopen : Bool

namespace Pipe

/-- `pi->nwrite == pi->nread + PIPESIZE`. -/
def full (pi : Pipe) : Bool := pi.ring.nwrite == pi.ring.nread + BitVec.ofNat 32 PIPESIZE

/-- `pi->nread == pi->nwrite`. -/
def empty (pi : Pipe) : Bool := pi.ring.nread == pi.ring.nwrite

/-- The pipe that `pipealloc` makes in a page of any content. -/
def pipealloc (data : Fin PIPESIZE → UInt8) : Pipe := ⟨⟨data, 0, 0⟩, true, true⟩

/-- `pi->data[pi->nwrite++ % PIPESIZE] = ch`. -/
def put (pi : Pipe) (ch : UInt8) : Pipe := { pi with ring := pi.ring.push ch }

/-- `ch = pi->data[pi->nread++ % PIPESIZE]`. -/
def take (pi : Pipe) : UInt8 × Pipe := (pi.ring.front, { pi with ring := pi.ring.pop })

end Pipe

/-- What a thread waits for. -/
inductive Channel where
  | nread
  | nwrite
deriving DecidableEq, Repr

/-- Where a thread is in the code of the pipe. The number of bytes asked for is an `int`. -/
inductive PipePc where
  | outside
  /-- `acquire` at the start of `pipewrite`. -/
  | writeEnter (n : Int)
  /-- The `while` of `pipewrite`, in round `i`. -/
  | write (n i : Int)
  /-- Asleep, or after that about to take the lock, in round `i`. -/
  | writeSleep (n i : Int)
  | readEnter (n : Int)
  /-- The `while` of `piperead`. -/
  | readWait (n : Int)
  | readSleep (n : Int)
  /-- The `for` of `piperead`, in round `i`. -/
  | read (n i : Int)
deriving DecidableEq, Repr

structure PipeThread where
  pc : PipePc
  asleep : Option Channel
  killed : Bool

/-- A pipe with its threads. `sent` and `received` record all bytes that went through
`put` and `take`. -/
structure PipeSys where
  pipe : Pipe
  lock : Option Nat
  thread : Nat → PipeThread
  sent : List UInt8
  received : List UInt8

namespace PipeSys

def moveTo (s : PipeSys) (t : Nat) (pc : PipePc) : PipeSys :=
  { s with thread := Function.update s.thread t { s.thread t with pc := pc } }

/-- Wake all threads that wait for `chan`. -/
def wakeup (s : PipeSys) (chan : Channel) : PipeSys :=
  { s with thread := fun t =>
      if (s.thread t).asleep = some chan then { s.thread t with asleep := none } else s.thread t }

/-- `sleep(chan, &pi->lock)` up to the switch to another thread. -/
def sleep (s : PipeSys) (t : Nat) (chan : Channel) (pc : PipePc) : PipeSys :=
  { s with
    lock := none
    thread := Function.update s.thread t { s.thread t with pc := pc, asleep := some chan } }

/-- `release` and return. -/
def leave (s : PipeSys) (t : Nat) : PipeSys := { s.moveTo t .outside with lock := none }

end PipeSys

inductive PipeAct where
  | callWrite (t : Nat) (n : Int)
  | callRead (t : Nat) (n : Int)
  | acquire (t : Nat)
  /-- One round of a loop, with the byte that `copyin` gets. -/
  | write (t : Nat) (copyin : Option UInt8)
  | wait (t : Nat)
  /-- One round of a loop, with the success of `copyout`. -/
  | read (t : Nat) (copyout : Bool)
  | kill (t : Nat)
  | close (writable : Bool)

open PipeSys in
/-- One step of one thread. -/
inductive PipeStep : PipeSys → PipeAct → PipeSys → Prop where
  | callWrite {s t n} (outside : (s.thread t).pc = .outside) :
      PipeStep s (.callWrite t n) (s.moveTo t (.writeEnter n))
  | callRead {s t n} (outside : (s.thread t).pc = .outside) :
      PipeStep s (.callRead t n) (s.moveTo t (.readEnter n))
  | enterWrite {s t n} (pc : (s.thread t).pc = .writeEnter n) (free : s.lock = none) :
      PipeStep s (.acquire t) { s.moveTo t (.write n 0) with lock := some t }
  | enterRead {s t n} (pc : (s.thread t).pc = .readEnter n) (free : s.lock = none) :
      PipeStep s (.acquire t) { s.moveTo t (.readWait n) with lock := some t }
  | wakeWrite {s t n i} (pc : (s.thread t).pc = .writeSleep n i)
      (awake : (s.thread t).asleep = none) (free : s.lock = none) :
      PipeStep s (.acquire t) { s.moveTo t (.write n i) with lock := some t }
  | wakeRead {s t n} (pc : (s.thread t).pc = .readSleep n)
      (awake : (s.thread t).asleep = none) (free : s.lock = none) :
      PipeStep s (.acquire t) { s.moveTo t (.readWait n) with lock := some t }
  | writeDone {s t n i copyin} (pc : (s.thread t).pc = .write n i) (held : s.lock = some t)
      (done : ¬ i < n) :
      PipeStep s (.write t copyin) ((s.wakeup .nread).leave t)
  | writeFails {s t n i copyin} (pc : (s.thread t).pc = .write n i) (held : s.lock = some t)
      (more : i < n) (full : s.pipe.full = true)
      (hopeless : s.pipe.readopen = false ∨ (s.thread t).killed = true) :
      PipeStep s (.write t copyin) (s.leave t)
  | writeSleeps {s t n i copyin} (pc : (s.thread t).pc = .write n i) (held : s.lock = some t)
      (more : i < n) (full : s.pipe.full = true)
      (hope : ¬ (s.pipe.readopen = false ∨ (s.thread t).killed = true)) :
      PipeStep s (.write t copyin) ((s.wakeup .nread).sleep t .nwrite (.writeSleep n i))
  | writeUnmapped {s t n i} (pc : (s.thread t).pc = .write n i) (held : s.lock = some t)
      (more : i < n) (room : s.pipe.full = false) :
      PipeStep s (.write t none) ((s.wakeup .nread).leave t)
  | writeByte {s t n i ch} (pc : (s.thread t).pc = .write n i) (held : s.lock = some t)
      (more : i < n) (room : s.pipe.full = false) :
      PipeStep s (.write t (some ch))
        { s.moveTo t (.write n (i + 1)) with pipe := s.pipe.put ch, sent := s.sent ++ [ch] }
  | waitFails {s t n} (pc : (s.thread t).pc = .readWait n) (held : s.lock = some t)
      (empty : s.pipe.empty = true) (open_ : s.pipe.writeopen = true)
      (killed : (s.thread t).killed = true) :
      PipeStep s (.wait t) (s.leave t)
  | waitSleeps {s t n} (pc : (s.thread t).pc = .readWait n) (held : s.lock = some t)
      (empty : s.pipe.empty = true) (open_ : s.pipe.writeopen = true)
      (alive : (s.thread t).killed = false) :
      PipeStep s (.wait t) (s.sleep t .nread (.readSleep n))
  | waitEnds {s t n} (pc : (s.thread t).pc = .readWait n) (held : s.lock = some t)
      (ready : ¬ (s.pipe.empty = true ∧ s.pipe.writeopen = true)) :
      PipeStep s (.wait t) (s.moveTo t (.read n 0))
  | readDone {s t n i copyout} (pc : (s.thread t).pc = .read n i) (held : s.lock = some t)
      (done : ¬ i < n ∨ s.pipe.empty = true) :
      PipeStep s (.read t copyout) ((s.wakeup .nwrite).leave t)
  | readByte {s t n i} (pc : (s.thread t).pc = .read n i) (held : s.lock = some t)
      (more : i < n) (some_ : s.pipe.empty = false) :
      PipeStep s (.read t true)
        { s.moveTo t (.read n (i + 1)) with
          pipe := s.pipe.take.2, received := s.received ++ [s.pipe.take.1] }
  | readUnmapped {s t n i} (pc : (s.thread t).pc = .read n i) (held : s.lock = some t)
      (more : i < n) (some_ : s.pipe.empty = false) :
      PipeStep s (.read t false)
        { (s.wakeup .nwrite).leave t with
          pipe := s.pipe.take.2, received := s.received ++ [s.pipe.take.1] }
  | kill {s t} :
      PipeStep s (.kill t) { s with
        thread := Function.update s.thread t { s.thread t with killed := true, asleep := none } }
  | closeWrite {s} (free : s.lock = none) :
      PipeStep s (.close true)
        ({ s with pipe := { s.pipe with writeopen := false } }.wakeup .nread)
  | closeRead {s} (free : s.lock = none) :
      PipeStep s (.close false)
        ({ s with pipe := { s.pipe with readopen := false } }.wakeup .nwrite)

/-- A pipe from `pipealloc` on. -/
def pipeSystem : TransitionSystem PipeSys PipeAct where
  Initial s := (∃ data, s.pipe = Pipe.pipealloc data) ∧ s.lock = none ∧
    (∀ t, (s.thread t).pc = .outside) ∧ s.sent = [] ∧ s.received = []
  Step := PipeStep

/-- The pipe holds the bytes sent and not yet received. -/
def PipeInv (s : PipeSys) : Prop := s.pipe.ring.Holds s.sent s.received

namespace PipeInv

variable {s : PipeSys}

theorem room (inv : PipeInv s) (room : s.pipe.full = false) :
    s.sent.length < s.received.length + PIPESIZE := by
  have differ : ¬ s.sent.length = s.received.length + PIPESIZE := by
    rw [← inv.full_iff (by decide)]
    simpa [Pipe.full] using room
  have bound := inv.bound
  omega

theorem more (inv : PipeInv s) (some_ : s.pipe.empty = false) :
    s.received.length < s.sent.length := by
  have differ : ¬ s.received.length = s.sent.length := by
    rw [← inv.empty_iff (by decide)]
    simpa [Pipe.empty] using some_
  have order := inv.order.length_le
  omega

theorem put (inv : PipeInv s) (room : s.pipe.full = false) (ch : UInt8) :
    (s.pipe.put ch).ring.Holds (s.sent ++ [ch]) s.received :=
  RingBuffer.Holds.push (by decide) inv (inv.room room) ch

theorem take (inv : PipeInv s) (some_ : s.pipe.empty = false) :
    s.pipe.take.2.ring.Holds s.sent (s.received ++ [s.pipe.take.1]) :=
  RingBuffer.Holds.pop (by decide) inv (inv.more some_)

end PipeInv

/-- Only the two copying steps touch the bytes. -/
theorem PipeStep.pipeInv {s s' : PipeSys} {act : PipeAct} (inv : PipeInv s)
    (step : PipeStep s act s') : PipeInv s' := by
  cases step with
  | writeByte _ _ _ room => exact inv.put room _
  | readByte _ _ _ some_ => exact inv.take some_
  | readUnmapped _ _ _ some_ => exact inv.take some_
  | _ => exact inv

theorem PipeInv.initial {s : PipeSys} (start : pipeSystem.Initial s) : PipeInv s := by
  obtain ⟨⟨data, pipe⟩, _, _, sent, received⟩ := start
  rw [PipeInv, pipe, sent, received]
  exact RingBuffer.Holds.empty

theorem pipeInv_of_run {s : PipeSys} (run : pipeSystem.Reachable s) : PipeInv s := by
  have inductive_ : pipeSystem.Inductive (fun _ _ => True) PipeInv :=
    ⟨PipeInv.initial, fun inv _ step => PipeStep.pipeInv inv step⟩
  exact run.invariant inductive_

/-- In every run of any number of readers and writers the counters differ by the number of
bytes in the pipe, at most its size, and the bytes received are the first bytes sent. -/
theorem pipe_fifo {s : PipeSys} (run : pipeSystem.Reachable s) :
    (s.pipe.ring.nwrite - s.pipe.ring.nread).toNat = s.sent.length - s.received.length ∧
      (s.pipe.ring.nwrite - s.pipe.ring.nread).toNat ≤ PIPESIZE ∧ s.received <+: s.sent := by
  have inv := pipeInv_of_run run
  have pending := inv.pending (by decide)
  have bound := inv.bound
  exact ⟨pending, by omega, inv.order⟩

/-- A new pipe that nobody uses. -/
def idlePipe : PipeSys :=
  ⟨.pipealloc fun _ => 0, none, fun _ => ⟨.outside, none, false⟩, [], []⟩

/-- One byte goes through: thread 0 writes it, and thread 1 reads it. -/
theorem pipe_fifo_oneByte : ∃ s, pipeSystem.Reachable s ∧ s.sent = [7] ∧ s.received = [7] ∧
    (s.pipe.ring.nwrite - s.pipe.ring.nread).toNat ≤ PIPESIZE := by
  have start : pipeSystem.Reachable idlePipe := .initial ⟨⟨_, rfl⟩, rfl, fun _ => rfl, rfl, rfl⟩
  have called := start.step trivial (.callWrite (t := 0) (n := 1) rfl)
  have entered := called.step trivial (.enterWrite (t := 0) rfl rfl)
  have sent := entered.step trivial (@PipeStep.writeByte _ 0 1 0 7 rfl rfl (by decide) (by decide))
  have left := sent.step trivial (@PipeStep.writeDone _ 0 1 1 none rfl rfl (by decide))
  have called := left.step trivial (.callRead (t := 1) (n := 1) rfl)
  have entered := called.step trivial (.enterRead (t := 1) rfl rfl)
  have waited := entered.step trivial (.waitEnds (t := 1) rfl rfl (by decide))
  have received := waited.step trivial (.readByte (t := 1) rfl rfl (by decide) (by decide))
  exact ⟨_, received, rfl, rfl, (pipe_fifo received).2.1⟩

end Riscv2os.Xv7
