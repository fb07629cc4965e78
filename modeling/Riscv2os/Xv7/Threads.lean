import Riscv2os.Xv7.ProcTable

/-!
# Kernel threads

`spinlock.c`, `sleeplock.c` and the switching of `proc.c` on all CPUs at once: `push_off` and `pop_off`, `acquire` and
`release`, `scheduler`, `sched`, `yield`, `sleep`, `wakeup` and sleep locks. What a thread has left to do is a list of
steps (`Instr`), the stack of its calls spelt out. One step is one access of a lock word, or of the fields that a held
lock protects, with what the CPU does without looking at memory of others. The rest of the kernel is `client`, which
may call any of this.
-/

namespace Riscv2os.Xv7.Threads

open Riscv2os.Std

/-- Maximum number of CPUs. -/
abbrev NCPU : Nat := 8

/-- A `struct spinlock`. -/
inductive Lock where
  /-- The lock of a process. -/
  | proc (p : Fin NPROC)
  /-- The `lk` of a sleep lock. -/
  | sleep (s : Nat)
  | other (address : Nat)
deriving DecidableEq

/-- What a process sleeps on. -/
inductive Chan where
  | proc (p : Fin NPROC)
  | sleep (s : Nat)
  | other (address : Nat)
deriving DecidableEq

/-- One step of a thread, or a call. -/
inductive Instr where
  | acquire (lk : Lock)
  | pushOff
  /-- `holding` reads `lk->locked`. If the result is not the expected one, that is a panic. -/
  | holding (lk : Lock) (expected : Bool) (message : String)
  /-- `holding` reads `lk->cpu`. -/
  | holdingCpu (lk : Lock) (expected : Bool) (message : String)
  /-- `__sync_lock_test_and_set(&lk->locked, 1)`, until it is 0. -/
  | testAndSet (lk : Lock)
  /-- `lk->cpu = mycpu()`. -/
  | setCpu (lk : Lock)
  | release (lk : Lock)
  /-- `lk->cpu = 0`. -/
  | clearCpu (lk : Lock)
  /-- `__sync_lock_release(&lk->locked)`. -/
  | lockRelease (lk : Lock)
  | popOff
  /-- The outer loop of `scheduler`. -/
  | scheduler
  | intrOn
  | intrOff
  /-- The inner loop of `scheduler`. -/
  | scan (i : Nat) (found : Bool)
  /-- The test of `p->state`, and the switch to the process. -/
  | pick (p : Fin NPROC) (found : Bool)
  | yield
  /-- `p->state = state`, of the process that runs. -/
  | setState (state : ProcTable.ProcState)
  | sched
  /-- The tests of `sched` on the CPU, and the switch to the scheduler. -/
  | swtch
  /-- `mycpu()->intena = intena`. -/
  | setIntena (intena : Bool)
  | sleep (chan : Chan) (lk : Lock)
  /-- `p->chan = chan` and `p->state = SLEEPING`. -/
  | fallAsleep (chan : Chan) (lk : Lock)
  /-- `p->chan = 0`. -/
  | clearChan
  /-- `wakeup`, from this process on. -/
  | wakeup (chan : Chan) (i : Nat)
  /-- Wake a process if it sleeps on the channel. -/
  | wake (chan : Chan) (p : Fin NPROC)
  | wakeup1 (p : Fin NPROC)
  /-- The part of `kill` under the lock. -/
  | rouse (p : Fin NPROC)
  /-- `exit` from the `wakeup1` of the parent on. -/
  | exit (parent : Fin NPROC)
  | panic (message : String)
  | acquiresleep (s : Nat)
  /-- The loop of `acquiresleep`, and `lk->locked = 1` behind it. -/
  | takeSleep (s : Nat)
  | releasesleep (s : Nat)
  /-- `lk->locked = 0`. -/
  | dropSleep (s : Nat)
  /-- Other code of a process. `on` is a history: whether it has last turned interrupts on. -/
  | client (on : Bool)
  /-- The handler of an interrupt in the kernel. -/
  | handler (on : Bool)
deriving DecidableEq

/-- `struct spinlock`. -/
structure Spinlock where
  locked : Bool := false
  cpu : Option (Fin NCPU) := none

/-- `struct sleeplock`, without its spin lock. -/
structure Sleeplock where
  locked : Bool := false
  pid : Nat := 0

/-- `struct cpu`, the interrupt enable bit, and what the thread on the CPU has left to do. -/
structure Cpu where
  proc : Option (Fin NPROC) := none
  scheduler : List Instr := []
  noff : Nat := 0
  intena : Bool := false
  intr : Bool := false
  code : List Instr := [.scheduler]

/-- `struct proc`, as far as threads are concerned. `given` is a history: the lock that the last `sleep` gave up. -/
structure Proc where
  state : ProcTable.ProcState := .unused
  chan : Option Chan := none
  pid : Nat := 0
  context : List Instr := []
  given : Option Lock := none

/-- All threads. `holds` is a history: who has a sleep lock, from its `lk->locked = 1` to its `lk->locked = 0`. -/
structure Kernel where
  cpu : Fin NCPU → Cpu
  lock : Lock → Spinlock
  proc : Fin NPROC → Proc
  sleeplock : Nat → Sleeplock
  holds : Fin NPROC → Nat → Bool

/-- What can happen. -/
inductive Label where
  /-- The next step of the thread on a CPU. -/
  | step (c : Fin NCPU)
  /-- The client calls a function. -/
  | call (c : Fin NCPU) (i : Instr)
  /-- The client calls `intr_on` or `intr_off`. -/
  | setIntr (c : Fin NCPU) (on : Bool)
  /-- `fork` makes a new process runnable. -/
  | fork (c : Fin NCPU) (p : Fin NPROC) (pid : Nat)
  | freeproc (c : Fin NCPU) (p : Fin NPROC)
  | interrupt (c : Fin NCPU)
  /-- The handler returns. -/
  | ret (c : Fin NCPU)

namespace Kernel

def setCpu (k : Kernel) (c : Fin NCPU) (cpu : Cpu) : Kernel := { k with cpu := Function.update k.cpu c cpu }

def setLock (k : Kernel) (lk : Lock) (lock : Spinlock) : Kernel := { k with lock := Function.update k.lock lk lock }

def setProc (k : Kernel) (p : Fin NPROC) (proc : Proc) : Kernel := { k with proc := Function.update k.proc p proc }

def setSleeplock (k : Kernel) (s : Nat) (lock : Sleeplock) : Kernel :=
  { k with sleeplock := Function.update k.sleeplock s lock }

def setHolds (k : Kernel) (p : Fin NPROC) (s : Nat) (value : Bool) : Kernel :=
  { k with holds := Function.update k.holds p (Function.update (k.holds p) s value) }

/-- The CPU goes on with this code. -/
def goto (k : Kernel) (c : Fin NCPU) (code : List Instr) : Kernel := k.setCpu c { k.cpu c with code := code }

/-- `sleep`, called by a process. With the lock of the process there is no other lock to give up. -/
def sleepCode (p : Fin NPROC) (chan : Chan) (lk : Lock) : List Instr :=
  if lk = .proc p then [.fallAsleep chan lk, .sched, .clearChan]
  else [.acquire (.proc p), .release lk, .fallAsleep chan lk, .sched, .clearChan, .release (.proc p), .acquire lk]

/-- The step of a CPU whose code is `i :: rest`. -/
def exec (k : Kernel) (c : Fin NCPU) (rest : List Instr) (i : Instr) : Except Fault Kernel :=
  let cpu := k.cpu c
  match i with
  | .acquire lk => .ok (k.goto c ([.pushOff, .holding lk false "acquire", .testAndSet lk, .setCpu lk] ++ rest))
  | .pushOff => .ok (k.setCpu c { cpu with
      intena := if cpu.noff = 0 then cpu.intr else cpu.intena
      intr := false
      noff := cpu.noff + 1
      code := rest })
  | .holding lk expected message =>
      if (k.lock lk).locked then .ok (k.goto c (.holdingCpu lk expected message :: rest))
      else if expected then .error (.panic message)
      else .ok (k.goto c rest)
  | .holdingCpu lk expected message =>
      if decide ((k.lock lk).cpu = some c) = expected then .ok (k.goto c rest) else .error (.panic message)
  | .testAndSet lk =>
      if (k.lock lk).locked then .ok k
      else .ok ((k.setLock lk { k.lock lk with locked := true }).goto c rest)
  | .setCpu lk => .ok ((k.setLock lk { k.lock lk with cpu := some c }).goto c rest)
  | .release lk => .ok (k.goto c ([.holding lk true "release", .clearCpu lk, .lockRelease lk, .popOff] ++ rest))
  | .clearCpu lk => .ok ((k.setLock lk { k.lock lk with cpu := none }).goto c rest)
  | .lockRelease lk => .ok ((k.setLock lk { k.lock lk with locked := false }).goto c rest)
  | .popOff =>
      if cpu.intr then .error (.panic "pop_off - interruptible")
      else if cpu.noff < 1 then .error (.panic "pop_off")
      else .ok (k.setCpu c { cpu with
        noff := cpu.noff - 1
        intr := cpu.noff - 1 = 0 && cpu.intena
        code := rest })
  | .scheduler => .ok (k.goto c ([.intrOn, .intrOff, .scan 0 false] ++ rest))
  | .intrOn => .ok (k.setCpu c { cpu with intr := true, code := rest })
  | .intrOff => .ok (k.setCpu c { cpu with intr := false, code := rest })
  | .scan i found =>
      if h : i < NPROC then .ok (k.goto c ([.acquire (.proc ⟨i, h⟩), .pick ⟨i, h⟩ found] ++ rest))
      -- If none was found, `wfi` waits for an interrupt.
      else .ok (k.goto c (.scheduler :: rest))
  | .pick p found =>
      if (k.proc p).state = .runnable then
        .ok ((k.setProc p { k.proc p with state := .running }).setCpu c { cpu with
          proc := some p
          scheduler := [.release (.proc p), .scan (p + 1) true] ++ rest
          code := (k.proc p).context })
      else .ok (k.setCpu c { cpu with intena := false, code := [.release (.proc p), .scan (p + 1) found] ++ rest })
  | .yield =>
      match cpu.proc with
      | none => .error .nullPointer
      | some p => .ok (k.goto c ([.acquire (.proc p), .setState .runnable, .sched, .release (.proc p)] ++ rest))
  | .setState state =>
      match cpu.proc with
      | none => .error .nullPointer
      | some p => .ok ((k.setProc p { k.proc p with state := state }).goto c rest)
  | .sched =>
      match cpu.proc with
      | none => .error .nullPointer
      | some p => .ok (k.goto c ([.holding (.proc p) true "sched p->lock", .swtch] ++ rest))
  | .swtch =>
      match cpu.proc with
      | none => .error .nullPointer
      | some p =>
          if cpu.noff ≠ 1 then .error (.panic "sched locks")
          else if (k.proc p).state = .running then .error (.panic "sched running")
          else if cpu.intr then .error (.panic "sched interruptible")
          -- The scheduler goes on with `c->proc = 0` and `c->intena = 0`.
          else .ok ((k.setProc p { k.proc p with context := .setIntena cpu.intena :: rest }).setCpu c { cpu with
            proc := none
            intena := false
            code := cpu.scheduler })
  | .setIntena intena => .ok (k.setCpu c { cpu with intena := intena, code := rest })
  | .sleep chan lk =>
      match cpu.proc with
      | none => .error .nullPointer
      | some p => .ok (k.goto c (sleepCode p chan lk ++ rest))
  | .fallAsleep chan lk =>
      match cpu.proc with
      | none => .error .nullPointer
      | some p => .ok ((k.setProc p { k.proc p with
          chan := some chan
          state := .sleeping
          given := some lk }).goto c rest)
  | .clearChan =>
      match cpu.proc with
      | none => .error .nullPointer
      | some p => .ok ((k.setProc p { k.proc p with chan := none }).goto c rest)
  | .wakeup chan i =>
      if h : i < NPROC then
        .ok (k.goto c
          ([.acquire (.proc ⟨i, h⟩), .wake chan ⟨i, h⟩, .release (.proc ⟨i, h⟩), .wakeup chan (i + 1)] ++ rest))
      else .ok (k.goto c rest)
  | .wake chan p =>
      if (k.proc p).state = .sleeping ∧ (k.proc p).chan = some chan then
        .ok ((k.setProc p { k.proc p with state := .runnable }).goto c rest)
      else .ok (k.goto c rest)
  | .wakeup1 p => .ok (k.goto c ([.holding (.proc p) true "wakeup1", .wake (.proc p) p] ++ rest))
  | .rouse p =>
      if (k.proc p).state = .sleeping then .ok ((k.setProc p { k.proc p with state := .runnable }).goto c rest)
      else .ok (k.goto c rest)
  | .exit parent => .ok (k.goto c
      ([.wakeup1 parent, .setState .zombie, .release (.proc parent), .sched, .panic "zombie exit"] ++ rest))
  | .panic message => .error (.panic message)
  | .acquiresleep s => .ok (k.goto c ([.acquire (.sleep s), .takeSleep s, .release (.sleep s)] ++ rest))
  | .takeSleep s =>
      match cpu.proc with
      | none => .error .nullPointer
      | some p =>
          if (k.sleeplock s).locked then .ok (k.goto c (sleepCode p (.sleep s) (.sleep s) ++ .takeSleep s :: rest))
          else .ok (((k.setSleeplock s ⟨true, (k.proc p).pid⟩).setHolds p s true).goto c rest)
  | .releasesleep s => .ok (k.goto c
      ([.acquire (.sleep s), .dropSleep s, .wakeup (.sleep s) 0, .release (.sleep s)] ++ rest))
  | .dropSleep s =>
      match cpu.proc with
      | none => .error .nullPointer
      | some p => .ok (((k.setSleeplock s ⟨false, 0⟩).setHolds p s false).goto c rest)
  | .client _ | .handler _ => .ok k

/-- `intr_on` and `intr_off` are noted in the history. -/
def noted (on : Bool) : List Instr → List Instr
  | .client _ :: rest => .client on :: rest
  | .handler _ :: rest => .handler on :: rest
  | code => code

def run (k : Kernel) : Label → Except Fault Kernel
  | .step c =>
      match (k.cpu c).code with
      | [] => .ok k
      | i :: rest => k.exec c rest i
  | .call c i => .ok (k.goto c (i :: (k.cpu c).code))
  | .setIntr c on => .ok (k.setCpu c { k.cpu c with intr := on, code := noted on (k.cpu c).code })
  -- A new process starts in `forkret`.
  | .fork _ p pid => .ok (k.setProc p { k.proc p with
      state := .runnable
      pid := pid
      context := [.release (.proc p), .client false] })
  | .freeproc _ p => .ok (k.setProc p { k.proc p with state := .unused, chan := none, pid := 0 })
  | .interrupt c => .ok (k.setCpu c { k.cpu c with intr := false, code := .handler false :: (k.cpu c).code })
  | .ret c => .ok (k.setCpu c { k.cpu c with intr := true, code := (k.cpu c).code.tail })

/-! ## What the rest of the kernel keeps to -/

/-- The CPU has the lock, between `acquire` and `release`. -/
def Holds (k : Kernel) (c : Fin NCPU) (lk : Lock) : Prop := (k.lock lk).cpu = some c

/-- The client or a handler is at work. -/
def AtClient (k : Kernel) (c : Fin NCPU) : Prop :=
  ∃ on rest, (k.cpu c).code = .client on :: rest ∨ (k.cpu c).code = .handler on :: rest

/-- What can be called. A lock is not acquired twice, and only released by who has it. `sleep` is called with no lock
but the one it gives up, and `acquiresleep` with none: the call in `iput`, which has the lock of the inode cache, is
left out. -/
def Callable (k : Kernel) (c : Fin NCPU) : Instr → Prop
  | .acquire lk => ¬ k.Holds c lk
  | .release lk => k.Holds c lk
  | .yield => (k.cpu c).proc ≠ none ∧ (k.cpu c).noff = 0
  | .sleep chan lk => (k.cpu c).proc ≠ none ∧ k.Holds c lk ∧ (k.cpu c).noff = 1 ∧ ∀ s, chan ≠ .sleep s
  | .wakeup _ i => i = 0 ∧ ∀ p, ¬ k.Holds c (.proc p)
  | .wakeup1 p => k.Holds c (.proc p)
  | .rouse p => k.Holds c (.proc p)
  | .exit parent => ∃ p, (k.cpu c).proc = some p ∧ p ≠ parent ∧ k.Holds c (.proc p) ∧ k.Holds c (.proc parent) ∧
      (k.cpu c).noff = 2
  | .acquiresleep _ => (k.cpu c).proc ≠ none ∧ (k.cpu c).noff = 0
  | .releasesleep s => (∃ on, (k.cpu c).code = [.client on]) ∧ (∃ p, (k.cpu c).proc = some p ∧ k.holds p s = true) ∧
      ¬ k.Holds c (.sleep s) ∧ ∀ p, ¬ k.Holds c (.proc p)
  | _ => False

/-- The steps of the threads, and what the client may do. -/
def Allowed (k : Kernel) : Label → Prop
  | .step _ => True
  | .call c i => k.AtClient c ∧ k.Callable c i
  | .setIntr c _ => k.AtClient c ∧ (k.cpu c).noff = 0
  | .fork c p _ => k.AtClient c ∧ k.Holds c (.proc p) ∧ (k.proc p).state = .unused
  | .freeproc c p => k.AtClient c ∧ k.Holds c (.proc p) ∧ (k.proc p).state = .zombie
  | .interrupt c => (k.cpu c).intr = true
  | .ret c => (k.cpu c).noff = 0 ∧ ∃ on rest, (k.cpu c).code = .handler on :: rest

/-- After `userinit`, when every CPU starts its scheduler. -/
def booted : Kernel where
  cpu _ := {}
  lock _ := {}
  proc p := if p = initproc then
    { state := .runnable, pid := 1, context := [.release (.proc initproc), .client false] } else {}
  sleeplock _ := {}
  holds _ _ := false

/-- All interleavings. -/
def system : TransitionSystem Kernel Label where
  Initial k := k = booted
  Step k label k' := k.run label = .ok k'

end Kernel

end Riscv2os.Xv7.Threads
