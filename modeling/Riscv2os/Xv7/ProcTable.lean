import Riscv2os.Std.TransitionSystem
import Riscv2os.Xv7.Mmap

/-!
# The process table under fork, exit, wait and kill

`proc.c` at the grain of its locks: one step is the code between two acquisitions of a process's
lock, or one round of a loop. A process runs such code only while it is RUNNING. Whether `kalloc`,
`uvmcopy` and `copyout` succeed is part of the label. `marks` is a history: what has set `killed` since
`allocproc` gave the entry its pid, a kill with its argument or, as `none`, a fault of the process.
-/

namespace Riscv2os.Xv7.ProcTable

open Riscv2os.Std

/-- `enum procstate`. -/
inductive ProcState where
  | unused
  | sleeping
  | runnable
  | running
  | zombie
deriving DecidableEq, Repr

/-- What a process sleeps on. -/
inductive Chan where
  /-- A `struct proc`. -/
  | proc (p : Fin NPROC)
  | other (address : Nat)
deriving DecidableEq, Repr

/-- `struct proc`, as far as the table is concerned. -/
structure Proc where
  state : ProcState := .unused
  parent : Option (Fin NPROC) := none
  chan : Option Chan := none
  killed : Bool := false
  xstate : BitVec 32 := 0
  pid : BitVec 32 := 0
  ofile : Fin NOFILE → Option (Fin NFILE) := fun _ => none
  minfo : Fin MMAP_NUM → MapInfo := fun _ => {}

/-- No open file and no mapping. -/
structure Proc.Empty (proc : Proc) : Prop where
  ofile : ∀ fd, proc.ofile fd = none
  minfo : ∀ i, (proc.minfo i).used = false

/-- Where a process is in the calls on the table. -/
inductive Call where
  /-- In user space, or in a call that does not use the table. -/
  | idle
  /-- The loop of `allocproc`. -/
  | allocproc (i : Nat)
  /-- `fork` with the lock of the new process. -/
  | fork (np : Fin NPROC)
  /-- The loop of `exit` over the open files. -/
  | exitFiles (status : BitVec 32) (fd : Nat)
  /-- The loop of `exit` over the mappings. -/
  | exitMaps (status : BitVec 32) (i : Nat)
  /-- `iput(p->cwd)`. -/
  | exitCwd (status : BitVec 32)
  /-- `wakeup1(initproc)`. -/
  | exitWake (status : BitVec 32)
  /-- `original_parent = p->parent`. -/
  | exitRead (status : BitVec 32)
  /-- `acquire(&original_parent->lock)`. -/
  | exitLock (status : BitVec 32) (parent : Fin NPROC)
  /-- `acquire(&p->lock)`, with the lock of the parent. -/
  | exitSelf (status : BitVec 32) (parent : Fin NPROC)
  /-- The loop of `reparent`, with both locks. -/
  | reparent (status : BitVec 32) (parent : Fin NPROC) (i : Nat)
  /-- `acquire(&p->lock)` in `wait`. -/
  | waitEnter
  /-- The loop of `wait` over the table, with the lock of `p`. -/
  | wait (havekids : Bool) (i : Nat)
  /-- Asleep in `wait`. -/
  | waitSleep
  /-- The loop of `kill`. -/
  | kill (pid : BitVec 32) (i : Nat)
deriving DecidableEq

/-- Whether a process has no lock of the table, and then can be preempted. -/
def Call.unlocked : Call → Bool
  | .fork _ | .exitSelf .. | .reparent .. | .wait .. => false
  | _ => true

/-- Whether a process can sleep in a call, other than in `wait` on itself. -/
def Call.sleeps : Call → Bool
  | .idle | .exitFiles .. | .exitCwd _ => true
  | _ => false

/-- The process table, who has its locks, and where the processes are. -/
structure Table where
  proc : Fin NPROC → Proc
  nextpid : BitVec 32
  lock : Fin NPROC → Option (Fin NPROC)
  call : Fin NPROC → Call
  marks : Fin NPROC → List (Option (BitVec 32))

/-- What can happen. -/
inductive Label where
  /-- The next step of the call of a process, with what the allocator or a copy says. -/
  | step (p : Fin NPROC) (ok : Bool)
  | fork (p : Fin NPROC)
  | exit (p : Fin NPROC) (status : BitVec 32)
  | wait (p : Fin NPROC)
  | kill (p : Fin NPROC) (pid : BitVec 32)
  /-- The test of `killed` on the way back to user space. -/
  | trap (p : Fin NPROC)
  /-- A trap that the kernel answers with `p->killed = 1`. -/
  | fault (p : Fin NPROC)
  /-- Calls that open, close, map and unmap. -/
  | tables (p : Fin NPROC) (ofile : Fin NOFILE → Option (Fin NFILE)) (minfo : Fin MMAP_NUM → MapInfo)
  /-- The scheduler chooses a process. -/
  | run (p : Fin NPROC)
  | yield (p : Fin NPROC)
  | sleep (p : Fin NPROC) (chan : Chan)
  | wakeup (p : Fin NPROC) (chan : Chan)

namespace Table

/-- The process goes on elsewhere. -/
def setCall (s : Table) (p : Fin NPROC) (call : Call) : Table :=
  { s with call := Function.update s.call p call }

/-- Change an entry of the table. -/
def updateProc (s : Table) (p : Fin NPROC) (change : Proc → Proc) : Table :=
  { s with proc := Function.update s.proc p (change (s.proc p)) }

/-- Give or take back the lock of an entry. -/
def setLock (s : Table) (i : Fin NPROC) (holder : Option (Fin NPROC)) : Table :=
  { s with lock := Function.update s.lock i holder }

/-- `p->pid = allocpid()`. -/
def allocpid (s : Table) (np : Fin NPROC) : Table :=
  { s.updateProc np fun proc => { proc with pid := s.nextpid } with
    nextpid := s.nextpid + 1
    marks := Function.update s.marks np [] }

/-- `p->killed = 1`, for this reason. -/
def mark (s : Table) (i : Fin NPROC) (reason : Option (BitVec 32)) : Table :=
  { s.updateProc i fun proc => { proc with killed := true } with
    marks := Function.update s.marks i (reason :: s.marks i) }

/-- `if(p->state == SLEEPING) p->state = RUNNABLE`. -/
def wake (s : Table) (i : Fin NPROC) : Table :=
  s.updateProc i fun proc =>
    { proc with state := if proc.state = .sleeping then .runnable else proc.state }

/-- Wake up a process if it sleeps in `wait`. -/
def wakeup1 (s : Table) (i : Fin NPROC) : Table :=
  if (s.proc i).chan = some (.proc i) then s.wake i else s

/-- Free an entry. Open files and mappings are not reset. -/
def freeproc (s : Table) (i : Fin NPROC) : Table :=
  s.updateProc i fun proc =>
    { proc with
      pid := 0
      parent := none
      chan := none
      killed := false
      xstate := 0
      state := .unused }

/-- `allocproc` at entry `i`. It returns the entry with its lock, and then `fork` goes on. Without a page
for the trap frame the entry stays UNUSED, with its new pid. -/
def allocproc (s : Table) (p : Fin NPROC) (i : Nat) (page : Bool) : Option Table :=
  if inside : i < NPROC then
    if s.lock ⟨i, inside⟩ ≠ none then none
    else if (s.proc ⟨i, inside⟩).state ≠ .unused then some (s.setCall p (.allocproc (i + 1)))
    else if page then
      some (((s.allocpid ⟨i, inside⟩).setLock ⟨i, inside⟩ (some p)).setCall p (.fork ⟨i, inside⟩))
    else some ((s.allocpid ⟨i, inside⟩).setCall p .idle)
  else some (s.setCall p .idle)

/-- What `fork` gives the child. -/
def inherit (s : Table) (p np : Fin NPROC) : Table :=
  s.updateProc np fun proc =>
    { proc with
      parent := some p
      ofile := fun fd => ((s.proc p).ofile fd).or (proc.ofile fd)
      minfo := fun i => if ((s.proc p).minfo i).used then (s.proc p).minfo i else proc.minfo i
      state := .runnable }

/-- `fork` after `allocproc`. -/
def forkRest (s : Table) (p np : Fin NPROC) (copied : Bool) : Table :=
  if copied then ((s.inherit p np).setLock np none).setCall p .idle
  else ((s.freeproc np).setLock np none).setCall p .idle

/-- The loop of `exit` over the open files. -/
def exitFiles (s : Table) (p : Fin NPROC) (status : BitVec 32) (fd : Nat) : Table :=
  if inside : fd < NOFILE then
    (s.updateProc p fun proc =>
      { proc with ofile := Function.update proc.ofile ⟨fd, inside⟩ none }).setCall p
        (.exitFiles status (fd + 1))
  else s.setCall p (.exitMaps status 0)

/-- The loop of `exit` over the mappings. -/
def exitMaps (s : Table) (p : Fin NPROC) (status : BitVec 32) (i : Nat) : Table :=
  if inside : i < MMAP_NUM then
    (s.updateProc p fun proc =>
      { proc with
        minfo := Function.update proc.minfo ⟨i, inside⟩
          { proc.minfo ⟨i, inside⟩ with used := false } }).setCall p (.exitMaps status (i + 1))
  else s.setCall p (.exitCwd status)

/-- `exit` reads its parent. -/
def exitRead (s : Table) (p : Fin NPROC) (status : BitVec 32) : Option Table :=
  match (s.proc p).parent with
  | some parent => some (s.setCall p (.exitLock status parent))
  | none => none

/-- The end of `exit`, and the scheduler gives back the lock of `p`. -/
def exitZombie (s : Table) (p : Fin NPROC) (status : BitVec 32) (parent : Fin NPROC) : Table :=
  ((((s.wakeup1 parent).updateProc p fun proc =>
    { proc with xstate := status, state := .zombie }).setLock parent none).setLock p none).setCall p
      .idle

/-- The loop of `reparent`. -/
def reparent (s : Table) (p : Fin NPROC) (status : BitVec 32) (parent : Fin NPROC) (i : Nat) :
    Option Table :=
  if inside : i < NPROC then
    if (s.proc ⟨i, inside⟩).parent ≠ some p then some (s.setCall p (.reparent status parent (i + 1)))
    else if s.lock ⟨i, inside⟩ ≠ none then none
    else some ((s.updateProc ⟨i, inside⟩ fun proc => { proc with parent := some initproc }).setCall p
      (.reparent status parent (i + 1)))
  else some (s.exitZombie p status parent)

/-- The loop of `wait`, with the success of `copyout`. -/
def waitScan (s : Table) (p : Fin NPROC) (havekids : Bool) (i : Nat) (copied : Bool) : Option Table :=
  if inside : i < NPROC then
    if (s.proc ⟨i, inside⟩).parent ≠ some p then some (s.setCall p (.wait havekids (i + 1)))
    else if s.lock ⟨i, inside⟩ ≠ none then none
    else if (s.proc ⟨i, inside⟩).state ≠ .zombie then some (s.setCall p (.wait true (i + 1)))
    else if copied then some (((s.freeproc ⟨i, inside⟩).setLock p none).setCall p .idle)
    else some ((s.setLock p none).setCall p .idle)
  else if havekids = false ∨ (s.proc p).killed = true then some ((s.setLock p none).setCall p .idle)
  else some (((s.updateProc p fun proc =>
    { proc with chan := some (.proc p), state := .sleeping }).setLock p none).setCall p .waitSleep)

/-- The loop of `kill`. -/
def kill (s : Table) (p : Fin NPROC) (pid : BitVec 32) (i : Nat) : Option Table :=
  if inside : i < NPROC then
    if s.lock ⟨i, inside⟩ ≠ none then none
    else if (s.proc ⟨i, inside⟩).pid ≠ pid then some (s.setCall p (.kill pid (i + 1)))
    else some (((s.mark ⟨i, inside⟩ (some pid)).wake ⟨i, inside⟩).setCall p .idle)
  else some (s.setCall p .idle)

/-- The next step of the call of a process. -/
def next (s : Table) (p : Fin NPROC) (ok : Bool) : Option Table :=
  match s.call p with
  | .idle => none
  | .allocproc i => s.allocproc p i ok
  | .fork np => some (s.forkRest p np ok)
  | .exitFiles status fd => some (s.exitFiles p status fd)
  | .exitMaps status i => some (s.exitMaps p status i)
  | .exitCwd status => some (s.setCall p (.exitWake status))
  | .exitWake status =>
      if s.lock initproc ≠ none then none
      else some ((s.wakeup1 initproc).setCall p (.exitRead status))
  | .exitRead status => if s.lock p ≠ none then none else s.exitRead p status
  | .exitLock status parent =>
      if s.lock parent ≠ none then none
      else some ((s.setLock parent (some p)).setCall p (.exitSelf status parent))
  | .exitSelf status parent =>
      if s.lock p ≠ none then none
      else some ((s.setLock p (some p)).setCall p (.reparent status parent 0))
  | .reparent status parent i => s.reparent p status parent i
  | .waitEnter =>
      if s.lock p ≠ none then none
      else some ((s.setLock p (some p)).setCall p (.wait false 0))
  | .wait havekids i => s.waitScan p havekids i ok
  | .waitSleep => none
  | .kill pid i => s.kill p pid i

/-- The scheduler runs a process, which gets its own lock back if it sleeps in `wait`. -/
def run (s : Table) (p : Fin NPROC) : Table :=
  match s.call p with
  | .waitSleep =>
      ((s.updateProc p fun proc => { proc with chan := none, state := .running }).setLock p
        (some p)).setCall p (.wait false 0)
  | _ => s.updateProc p fun proc => { proc with chan := none, state := .running }

/-- One step. -/
def step (s : Table) : Label → Option Table
  | .step p ok => if (s.proc p).state = .running then s.next p ok else none
  | .fork p =>
      if (s.proc p).state = .running ∧ s.call p = .idle then some (s.setCall p (.allocproc 0)) else none
  | .exit p status =>
      if (s.proc p).state = .running ∧ s.call p = .idle ∧ p ≠ initproc then
        some (s.setCall p (.exitFiles status 0)) else none
  | .wait p =>
      if (s.proc p).state = .running ∧ s.call p = .idle then some (s.setCall p .waitEnter) else none
  | .kill p pid =>
      if (s.proc p).state = .running ∧ s.call p = .idle then some (s.setCall p (.kill pid 0)) else none
  | .trap p =>
      if (s.proc p).state = .running ∧ s.call p = .idle ∧ (s.proc p).killed = true ∧ p ≠ initproc then
        some (s.setCall p (.exitFiles (-1) 0)) else none
  | .fault p =>
      if (s.proc p).state = .running ∧ s.call p = .idle then some (s.mark p none) else none
  | .tables p ofile minfo =>
      if (s.proc p).state = .running ∧ s.call p = .idle then
        some (s.updateProc p fun proc => { proc with ofile := ofile, minfo := minfo }) else none
  | .run p =>
      if (s.proc p).state = .runnable ∧ s.lock p = none then some (s.run p) else none
  | .yield p =>
      if (s.proc p).state = .running ∧ (s.call p).unlocked ∧ s.lock p = none then
        some (s.updateProc p fun proc => { proc with state := .runnable }) else none
  | .sleep p chan =>
      if (s.proc p).state = .running ∧ (s.call p).sleeps ∧ s.lock p = none then
        some (s.updateProc p fun proc => { proc with chan := some chan, state := .sleeping }) else none
  | .wakeup p chan =>
      if s.lock p = none ∧ (s.proc p).chan = some chan then some (s.wake p) else none

/-- The table after `procinit` and `userinit`. -/
def boot : Table where
  proc i := if i = initproc then { state := .runnable, pid := 1 } else {}
  nextpid := 2
  lock _ := none
  call _ := .idle
  marks _ := []

/-- The table as it runs. -/
def system : TransitionSystem Table Label where
  Initial s := s = boot
  Step s label s' := s.step label = some s'

end Table

namespace Call

/-- Whether a call of `p` has the lock of entry `i`. -/
def Holds (call : Call) (p i : Fin NPROC) : Prop :=
  match call with
  | .fork np => i = np
  | .exitSelf _ parent => i = parent
  | .reparent _ parent _ => i = parent ∨ i = p
  | .wait .. => i = p
  | _ => False

/-- How many open files `exit` has closed. -/
def filesClosed : Call → Nat
  | .exitFiles _ fd => fd
  | .exitMaps .. | .exitCwd _ | .exitWake _ | .exitRead _ | .exitLock .. | .exitSelf .. | .reparent .. =>
      NOFILE
  | _ => 0

/-- How many mappings `exit` has removed. -/
def mapsRemoved : Call → Nat
  | .exitMaps _ i => i
  | .exitCwd _ | .exitWake _ | .exitRead _ | .exitLock .. | .exitSelf .. | .reparent .. => MMAP_NUM
  | _ => 0

/-- A call without locks of the table that closes and removes nothing. -/
def Plain (call : Call) : Prop :=
  (∀ p i, ¬ call.Holds p i) ∧ (∀ np, call ≠ .fork np) ∧ call.filesClosed = 0 ∧ call.mapsRemoved = 0

theorem plain_idle : Plain .idle := ⟨fun _ _ => id, fun _ => nofun, rfl, rfl⟩

theorem plain_allocproc (i : Nat) : Plain (.allocproc i) := ⟨fun _ _ => id, fun _ => nofun, rfl, rfl⟩

theorem plain_exit (status : BitVec 32) : Plain (.exitFiles status 0) :=
  ⟨fun _ _ => id, fun _ => nofun, rfl, rfl⟩

theorem plain_waitEnter : Plain .waitEnter := ⟨fun _ _ => id, fun _ => nofun, rfl, rfl⟩

theorem plain_waitSleep : Plain .waitSleep := ⟨fun _ _ => id, fun _ => nofun, rfl, rfl⟩

theorem plain_kill (pid : BitVec 32) (i : Nat) : Plain (.kill pid i) :=
  ⟨fun _ _ => id, fun _ => nofun, rfl, rfl⟩

end Call

namespace Table

variable {s s' : Table} {p q i np : Fin NPROC} {call : Call} {ok : Bool}

/-- What an entry has to be in a table. -/
structure Fits (s : Table) (i : Fin NPROC) (proc : Proc) : Prop where
  idle : proc.state = .unused ∨ proc.state = .zombie → s.call i = .idle
  forked : ∀ p, s.call p = .fork i → proc.state = .unused ∧ s.marks i = []
  spare : proc.state = .unused → proc.killed = false
  empty : proc.state = .unused ∨ proc.state = .zombie → proc.Empty
  closed : ∀ fd, fd.val < (s.call i).filesClosed → proc.ofile fd = none
  removed : ∀ k, k.val < (s.call i).mapsRemoved → (proc.minfo k).used = false
  marked : ∀ pid, some pid ∈ s.marks i → proc.state ≠ .unused → proc.pid = pid
  cause : proc.state ≠ .unused → proc.killed = true → s.marks i ≠ []

/-- What holds between two steps. -/
structure Sound (s : Table) : Prop where
  held : ∀ p i, (s.call p).Holds p i → s.lock i = some p
  fits : ∀ i, s.Fits i (s.proc i)

/-- A process that runs code of the kernel. -/
structure Active (s : Table) (p : Fin NPROC) : Prop where
  used : (s.proc p).state ≠ .unused
  alive : (s.proc p).state ≠ .zombie

namespace Active

theorem of_running (running : (s.proc p).state = .running) : s.Active p where
  used := by simp [running]
  alive := by simp [running]

/-- A change of an entry that neither frees it nor ends its process. -/
theorem updateProc {change : Proc → Proc} (active : s.Active p)
    (used : (change (s.proc i)).state = .unused → (s.proc i).state = .unused)
    (alive : (change (s.proc i)).state = .zombie → (s.proc i).state = .zombie) :
    (s.updateProc i change).Active p := by
  by_cases same : p = i
  · subst same
    have entry : (s.updateProc p change).proc p = change (s.proc p) := Function.update_self ..
    exact ⟨fun unused => active.used (used (entry ▸ unused)),
      fun zombie => active.alive (alive (entry ▸ zombie))⟩
  · have entry : (s.updateProc i change).proc p = s.proc p := Function.update_of_ne same ..
    exact ⟨entry ▸ active.used, entry ▸ active.alive⟩

theorem wake (active : s.Active p) : (s.wake i).Active p := by
  refine active.updateProc ?_ ?_
  all_goals
    dsimp only
    split
    · exact nofun
    · exact id

theorem wakeup1 (active : s.Active p) : (s.wakeup1 i).Active p := by
  unfold Table.wakeup1
  split
  · exact active.wake
  · exact active

theorem mark {reason : Option (BitVec 32)} (active : s.Active p) : (s.mark i reason).Active p :=
  have marked : (s.updateProc i fun proc => { proc with killed := true }).Active p :=
    active.updateProc id id
  ⟨marked.used, marked.alive⟩

end Active

namespace Sound

/-- Change an entry. -/
theorem updateProc {change : Proc → Proc} (sound : s.Sound) (fits : s.Fits i (change (s.proc i))) :
    (s.updateProc i change).Sound where
  held := sound.held
  fits j := by
    by_cases same : j = i
    · subst same
      have entry : (s.updateProc j change).proc j = change (s.proc j) := Function.update_self ..
      rw [entry]
      exact { fits with }
    · have entry : (s.updateProc i change).proc j = s.proc j := Function.update_of_ne same ..
      rw [entry]
      exact { sound.fits j with }

/-- Take a free lock. -/
theorem acquire (sound : s.Sound) (free : s.lock i = none) : (s.setLock i (some p)).Sound where
  held q j holds := by
    have held := sound.held q j holds
    have other : j ≠ i := by
      rintro rfl
      rw [free] at held
      cases held
    exact (Function.update_of_ne other ..).trans held
  fits j := { sound.fits j with }

/-- Give back a lock that no call relies on. -/
theorem release (sound : s.Sound) (nobody : ∀ q, ¬ (s.call q).Holds q i) :
    (s.setLock i none).Sound where
  held q j holds := by
    have other : j ≠ i := by
      rintro rfl
      exact nobody q holds
    exact (Function.update_of_ne other ..).trans (sound.held q j holds)
  fits j := { sound.fits j with }

/-- A call goes on. -/
theorem setCall (sound : s.Sound) (active : s.Active p) (holds : ∀ i, call.Holds p i → s.lock i = some p)
    (forks : ∀ np, call = .fork np → (s.proc np).state = .unused ∧ s.marks np = [])
    (closed : ∀ fd, fd.val < call.filesClosed → (s.proc p).ofile fd = none)
    (removed : ∀ k, k.val < call.mapsRemoved → ((s.proc p).minfo k).used = false) :
    (s.setCall p call).Sound where
  held q j := by
    by_cases same : q = p
    · subst same
      rw [show (s.setCall q call).call q = call from Function.update_self ..]
      exact holds j
    · rw [show (s.setCall p call).call q = s.call q from Function.update_of_ne same ..]
      exact sound.held q j
  fits j := by
    have fits := sound.fits j
    have forked : ∀ q, (s.setCall p call).call q = .fork j →
        (s.proc j).state = .unused ∧ s.marks j = [] := by
      intro q
      by_cases same : q = p
      · subst same
        rw [show (s.setCall q call).call q = call from Function.update_self ..]
        exact forks j
      · rw [show (s.setCall p call).call q = s.call q from Function.update_of_ne same ..]
        exact fits.forked q
    by_cases same : j = p
    · subst same
      have now : (s.setCall j call).call j = call := Function.update_self ..
      refine { fits with forked := forked, idle := ?_, closed := ?_, removed := ?_ }
      · rintro (unused | zombie)
        · exact absurd unused active.used
        · exact absurd zombie active.alive
      · rw [now]
        exact closed
      · rw [now]
        exact removed
    · have now : (s.setCall p call).call j = s.call j := Function.update_of_ne same ..
      refine { fits with forked := forked, idle := ?_, closed := ?_, removed := ?_ }
      · rw [now]
        exact fits.idle
      · rw [now]
        exact fits.closed
      · rw [now]
        exact fits.removed

/-- Go on with a call that has no obligations. -/
theorem plain (sound : s.Sound) (active : s.Active p) (plain : call.Plain) : (s.setCall p call).Sound :=
  sound.setCall active (fun i holds => absurd holds (plain.1 p i)) (fun np fork => absurd fork (plain.2.1 np))
    (fun _ below => absurd (plain.2.2.1 ▸ below) (Nat.not_lt_zero _))
    (fun _ below => absurd (plain.2.2.2 ▸ below) (Nat.not_lt_zero _))

/-- Nobody else has a lock. -/
theorem alone (sound : s.Sound) (held : s.lock i = some p) (other : q ≠ p) :
    ¬ (s.call q).Holds q i := by
  intro holds
  have same := sound.held q i holds
  rw [held] at same
  cases same
  exact other rfl

/-- The call is over and gives back its only lock. -/
theorem finish (sound : s.Sound) (active : s.Active p) (held : s.lock i = some p) :
    ((s.setCall p .idle).setLock i none).Sound := by
  refine (sound.plain active Call.plain_idle).release fun q => ?_
  by_cases same : q = p
  · subst same
    rw [show (s.setCall q .idle).call q = .idle from Function.update_self ..]
    exact id
  · rw [show (s.setCall p .idle).call q = s.call q from Function.update_of_ne same ..]
    exact sound.alone held same

/-- A call goes on, with as many files and mappings gone as before. -/
theorem advance {before : Call} (sound : s.Sound) (active : s.Active p) (was : s.call p = before)
    (holds : ∀ i, call.Holds p i → s.lock i = some p) (forks : ∀ np, call ≠ .fork np)
    (closed : call.filesClosed = before.filesClosed) (removed : call.mapsRemoved = before.mapsRemoved) :
    (s.setCall p call).Sound := by
  subst was
  exact sound.setCall active holds (fun np fork => absurd fork (forks np))
    (fun fd below => (sound.fits p).closed fd (closed ▸ below))
    (fun k below => (sound.fits p).removed k (removed ▸ below))

/-- Change fields of an entry that nobody relies on, and its state between those of live processes. -/
theorem restate {change : Proc → Proc} (sound : s.Sound)
    (unused : (change (s.proc i)).state = .unused ↔ (s.proc i).state = .unused)
    (zombie : (change (s.proc i)).state = .zombie ↔ (s.proc i).state = .zombie)
    (pid : (change (s.proc i)).pid = (s.proc i).pid)
    (killed : (change (s.proc i)).killed = (s.proc i).killed)
    (ofile : (change (s.proc i)).ofile = (s.proc i).ofile)
    (minfo : (change (s.proc i)).minfo = (s.proc i).minfo) : (s.updateProc i change).Sound := by
  have fits := sound.fits i
  refine sound.updateProc ⟨?_, ?_, ?_, ?_, ?_, ?_, ?_, ?_⟩
  · rw [unused, zombie]
    exact fits.idle
  · rw [unused]
    exact fits.forked
  · rw [unused, killed]
    exact fits.spare
  · rw [unused, zombie]
    intro dead
    have empty := fits.empty dead
    exact ⟨by rw [ofile]; exact empty.ofile, by rw [minfo]; exact empty.minfo⟩
  · rw [ofile]
    exact fits.closed
  · rw [minfo]
    exact fits.removed
  · rw [Ne, unused, pid]
    exact fits.marked
  · rw [Ne, unused, killed]
    exact fits.cause

theorem wake (sound : s.Sound) : (s.wake i).Sound := by
  refine sound.restate ?_ ?_ rfl rfl rfl rfl
  all_goals
    dsimp only
    split
    · next sleeping => simp [sleeping]
    · exact Iff.rfl

theorem wakeup1 (sound : s.Sound) : (s.wakeup1 i).Sound := by
  unfold Table.wakeup1
  split
  · exact sound.wake
  · exact sound

/-- A free entry gets a new pid. -/
theorem allocpid (sound : s.Sound) (unused : (s.proc np).state = .unused) : (s.allocpid np).Sound := by
  refine ⟨sound.held, fun j => ?_⟩
  by_cases same : j = np
  · subst same
    have fits := sound.fits j
    have marks : (s.allocpid j).marks j = [] := Function.update_self ..
    have entry : (s.allocpid j).proc j = { s.proc j with pid := s.nextpid } := Function.update_self ..
    rw [entry]
    refine ⟨fits.idle, fun p _ => ⟨unused, marks⟩, fits.spare, fun dead => ?_, fits.closed, fits.removed,
      fun pid _ used => absurd unused used, fun used => absurd unused used⟩
    exact ⟨(fits.empty dead).ofile, (fits.empty dead).minfo⟩
  · have marks : (s.allocpid np).marks j = s.marks j := Function.update_of_ne same ..
    have entry : (s.allocpid np).proc j = s.proc j := Function.update_of_ne same ..
    have fits := sound.fits j
    rw [entry]
    refine { fits with forked := ?_, marked := ?_, cause := ?_ }
    · rw [marks]
      exact fits.forked
    · rw [marks]
      exact fits.marked
    · rw [marks]
      exact fits.cause

/-- A live process is marked. -/
theorem mark {reason : Option (BitVec 32)} (sound : s.Sound) (used : (s.proc i).state ≠ .unused)
    (own : ∀ pid, reason = some pid → (s.proc i).pid = pid) : (s.mark i reason).Sound := by
  refine ⟨sound.held, fun j => ?_⟩
  by_cases same : j = i
  · subst same
    have fits := sound.fits j
    have marks : (s.mark j reason).marks j = reason :: s.marks j := Function.update_self ..
    have entry : (s.mark j reason).proc j = { s.proc j with killed := true } := Function.update_self ..
    rw [entry]
    refine ⟨fits.idle, fun p fork => absurd (fits.forked p fork).1 used, fun unused => absurd unused used,
      fun dead => ?_, fits.closed, fits.removed, fun pid listed live => ?_, fun _ _ => ?_⟩
    · exact ⟨(fits.empty dead).ofile, (fits.empty dead).minfo⟩
    · rw [marks, List.mem_cons] at listed
      rcases listed with now | before
      · exact own pid now.symm
      · exact fits.marked pid before live
    · rw [marks]
      exact List.cons_ne_nil _ _
  · have marks : (s.mark i reason).marks j = s.marks j := Function.update_of_ne same ..
    have entry : (s.mark i reason).proc j = s.proc j := Function.update_of_ne same ..
    have fits := sound.fits j
    rw [entry]
    refine { fits with forked := ?_, marked := ?_, cause := ?_ }
    · rw [marks]
      exact fits.forked
    · rw [marks]
      exact fits.marked
    · rw [marks]
      exact fits.cause

/-- `freeproc` of an entry without open files and mappings that no `fork` has. -/
theorem freeproc (sound : s.Sound) (idle : s.call i = .idle) (empty : (s.proc i).Empty)
    (unforked : ∀ q, s.call q ≠ .fork i) : (s.freeproc i).Sound :=
  sound.updateProc
    { idle := fun _ => idle
      forked := fun q fork => absurd fork (unforked q)
      spare := fun _ => rfl
      empty := fun _ => ⟨empty.ofile, empty.minfo⟩
      closed := fun fd _ => empty.ofile fd
      removed := fun k _ => empty.minfo k
      marked := fun _ _ used => absurd rfl used
      cause := fun used => absurd rfl used }

theorem allocproc {k : Nat} (sound : s.Sound) (active : s.Active p)
    (next : s.allocproc p k ok = some s') : s'.Sound := by
  unfold Table.allocproc at next
  split at next
  next inside =>
    split at next
    · cases next
    next free =>
    rw [Ne, not_not] at free
    split at next
    · cases next
      exact sound.plain active (Call.plain_allocproc _)
    next unused =>
    rw [Ne, not_not] at unused
    have other : p ≠ ⟨k, inside⟩ := by
      rintro rfl
      exact active.used unused
    have numbered := sound.allocpid unused
    have active : (s.allocpid ⟨k, inside⟩).Active p := by
      have entry : (s.allocpid ⟨k, inside⟩).proc p = s.proc p := Function.update_of_ne other ..
      exact ⟨entry ▸ active.used, entry ▸ active.alive⟩
    split at next
    · cases next
      refine (numbered.acquire free).setCall ⟨active.used, active.alive⟩ ?_ ?_ nofun nofun
      · rintro j rfl
        exact Function.update_self ..
      · rintro np fork
        cases fork
        refine ⟨?_, Function.update_self ..⟩
        show ((s.allocpid ⟨k, inside⟩).proc ⟨k, inside⟩).state = _
        rw [show (s.allocpid ⟨k, inside⟩).proc ⟨k, inside⟩ = _ from Function.update_self ..]
        exact unused
    · cases next
      exact numbered.plain active Call.plain_idle
  · cases next
    exact sound.plain active Call.plain_idle

theorem forkRest (sound : s.Sound) (active : s.Active p) (call : s.call p = .fork np) :
    (s.forkRest p np ok).Sound := by
  obtain ⟨unused, marks⟩ := (sound.fits np).forked p call
  have fits := sound.fits np
  have held : s.lock np = some p := sound.held p np (by rw [call]; rfl)
  have other : np ≠ p := by
    rintro rfl
    exact active.used unused
  have quiet : s.call np = .idle := fits.idle (.inl unused)
  have finished := sound.finish active held
  have idle : ((s.setCall p .idle).setLock np none).call np = .idle :=
    (Function.update_of_ne other ..).trans quiet
  have unforked : ∀ q, ((s.setCall p .idle).setLock np none).call q ≠ .fork np := by
    intro q fork
    have holds : ¬ (((s.setCall p .idle).setLock np none).call q).Holds q np := by
      intro holds
      have locked := finished.held q np holds
      rw [show ((s.setCall p .idle).setLock np none).lock np = none from Function.update_self ..] at locked
      cases locked
    rw [fork] at holds
    exact holds rfl
  unfold Table.forkRest
  split
  · show (((s.setCall p .idle).setLock np none).inherit p np).Sound
    refine finished.updateProc ?_
    refine
      { idle := nofun
        forked := fun q fork => absurd fork (unforked q)
        spare := nofun
        empty := nofun
        closed := fun fd below => ?_
        removed := fun k below => ?_
        marked := fun pid listed _ => ?_
        cause := fun _ killed => ?_ }
    · rw [idle] at below
      cases below
    · rw [idle] at below
      cases below
    · change some pid ∈ s.marks np at listed
      rw [marks] at listed
      cases listed
    · change (s.proc np).killed = true at killed
      rw [fits.spare unused] at killed
      cases killed
  · exact finished.freeproc idle (fits.empty (.inl unused)) unforked

theorem exitFiles {status : BitVec 32} {fd : Nat} (sound : s.Sound) (active : s.Active p)
    (call : s.call p = .exitFiles status fd) : (s.exitFiles p status fd).Sound := by
  have fits := sound.fits p
  have closed : ∀ k : Fin NOFILE, k.val < fd → (s.proc p).ofile k = none := by
    intro k below
    exact fits.closed k (by rw [call]; exact below)
  unfold Table.exitFiles
  split
  next inside =>
    let change : Proc → Proc := fun proc =>
      { proc with ofile := Function.update proc.ofile ⟨fd, inside⟩ none }
    have entry : (s.updateProc p change).proc p = change (s.proc p) := Function.update_self ..
    have gone : ∀ k : Fin NOFILE, k.val < fd + 1 → (change (s.proc p)).ofile k = none := by
      intro k below
      by_cases last : k = ⟨fd, inside⟩
      · subst last
        exact Function.update_self ..
      · refine (Function.update_of_ne last ..).trans (closed k ?_)
        have apart : k.val ≠ fd := fun same => last (Fin.ext same)
        omega
    have cleared : (s.updateProc p change).Sound := by
      refine sound.updateProc
        { fits with
          empty := fun dead => absurd dead (not_or.mpr ⟨active.used, active.alive⟩)
          closed := fun k below => gone k ?_ }
      rw [call] at below
      exact Nat.lt_succ_of_lt below
    refine cleared.setCall ⟨?_, ?_⟩ (fun _ => nofun) nofun ?_ nofun
    · rw [entry]
      exact active.used
    · rw [entry]
      exact active.alive
    · rw [entry]
      exact gone
  next outside =>
    refine sound.setCall active (fun _ => nofun) nofun (fun k _ => closed k ?_) nofun
    exact Nat.lt_of_lt_of_le k.isLt (Nat.le_of_not_lt outside)

theorem exitMaps {status : BitVec 32} {k : Nat} (sound : s.Sound) (active : s.Active p)
    (call : s.call p = .exitMaps status k) : (s.exitMaps p status k).Sound := by
  have fits := sound.fits p
  have removed : ∀ j : Fin MMAP_NUM, j.val < k → ((s.proc p).minfo j).used = false := by
    intro j below
    exact fits.removed j (by rw [call]; exact below)
  have closed : ∀ fd, (s.proc p).ofile fd = none := by
    intro fd
    exact fits.closed fd (by rw [call]; exact fd.isLt)
  unfold Table.exitMaps
  split
  next inside =>
    let change : Proc → Proc := fun proc =>
      { proc with
        minfo := Function.update proc.minfo ⟨k, inside⟩ { proc.minfo ⟨k, inside⟩ with used := false } }
    have entry : (s.updateProc p change).proc p = change (s.proc p) := Function.update_self ..
    have maps : (change (s.proc p)).minfo = Function.update (s.proc p).minfo ⟨k, inside⟩
        { (s.proc p).minfo ⟨k, inside⟩ with used := false } := rfl
    have gone : ∀ j : Fin MMAP_NUM, j.val < k + 1 → ((change (s.proc p)).minfo j).used = false := by
      intro j below
      by_cases last : j = ⟨k, inside⟩
      · subst last
        rw [maps, Function.update_self]
      · rw [maps, Function.update_of_ne last]
        have apart : j.val ≠ k := fun same => last (Fin.ext same)
        exact removed j (by omega)
    have cleared : (s.updateProc p change).Sound := by
      refine sound.updateProc
        { fits with
          empty := fun dead => absurd dead (not_or.mpr ⟨active.used, active.alive⟩)
          removed := fun j below => gone j ?_ }
      rw [call] at below
      exact Nat.lt_succ_of_lt below
    refine cleared.setCall ⟨?_, ?_⟩ (fun _ => nofun) nofun ?_ ?_
    · rw [entry]
      exact active.used
    · rw [entry]
      exact active.alive
    · rw [entry]
      exact fun fd _ => closed fd
    · rw [entry]
      exact gone
  next outside =>
    refine sound.setCall active (fun _ => nofun) nofun (fun fd _ => closed fd) (fun j _ => removed j ?_)
    exact Nat.lt_of_lt_of_le j.isLt (Nat.le_of_not_lt outside)

end Sound

theorem wakeup1_call : (s.wakeup1 i).call = s.call := by
  unfold wakeup1
  split <;> rfl

namespace Sound

theorem exitZombie {status : BitVec 32} {parent : Fin NPROC} {k : Nat} (sound : s.Sound)
    (active : s.Active p) (call : s.call p = .reparent status parent k) :
    (s.exitZombie p status parent).Sound := by
  have woken : (s.wakeup1 parent).Sound := sound.wakeup1
  have active : (s.wakeup1 parent).Active p := active.wakeup1
  have fits := woken.fits p
  have same : (s.wakeup1 parent).call p = .reparent status parent k := by rw [wakeup1_call, call]
  have closed : ∀ fd, ((s.wakeup1 parent).proc p).ofile fd = none := by
    intro fd
    exact fits.closed fd (by rw [same]; exact fd.isLt)
  have removed : ∀ j, (((s.wakeup1 parent).proc p).minfo j).used = false := by
    intro j
    exact fits.removed j (by rw [same]; exact j.isLt)
  have held : ∀ j, j = parent ∨ j = p → (s.wakeup1 parent).lock j = some p := by
    intro j one
    exact woken.held p j (by rw [same]; exact one)
  -- Both locks are given back, and nobody else relies on one of them.
  have quiet := woken.plain active Call.plain_idle
  have nobody : ∀ j, j = parent ∨ j = p →
      ∀ q, ¬ (((s.wakeup1 parent).setCall p .idle).call q).Holds q j := by
    intro j one q
    by_cases own : q = p
    · subst own
      rw [show ((s.wakeup1 parent).setCall q .idle).call q = .idle from Function.update_self ..]
      exact id
    · rw [show ((s.wakeup1 parent).setCall p .idle).call q = _ from Function.update_of_ne own ..]
      exact woken.alone (held j one) own
  have released := (quiet.release (nobody parent (.inl rfl))).release (nobody p (.inr rfl))
  have idle : ((((s.wakeup1 parent).setCall p .idle).setLock parent none).setLock p none).call p = .idle :=
    Function.update_self ..
  have fits := released.fits p
  let change : Proc → Proc := fun proc => { proc with xstate := status, state := .zombie }
  show (((((s.wakeup1 parent).setCall p .idle).setLock parent none).setLock p none).updateProc p
    change).Sound
  exact released.updateProc
    { fits with
      idle := fun _ => idle
      forked := fun q fork => absurd (fits.forked q fork).1 active.used
      spare := fun unused => nomatch unused
      empty := fun _ => ⟨closed, removed⟩
      marked := fun pid listed _ => fits.marked pid listed active.used
      cause := fun _ killed => fits.cause active.used killed }

theorem reparent {status : BitVec 32} {parent : Fin NPROC} {k : Nat} (sound : s.Sound)
    (active : s.Active p) (call : s.call p = .reparent status parent k)
    (next : s.reparent p status parent k = some s') : s'.Sound := by
  have held : ∀ j, (Call.reparent status parent (k + 1)).Holds p j → s.lock j = some p := by
    intro j holds
    exact sound.held p j (by rw [call]; exact holds)
  unfold Table.reparent at next
  split at next
  next inside =>
    split at next
    · cases next
      exact sound.advance active call held nofun rfl rfl
    split at next
    · cases next
    · cases next
      have moved : (s.updateProc ⟨k, inside⟩ fun proc => { proc with parent := some initproc }).Sound :=
        sound.restate Iff.rfl Iff.rfl rfl rfl rfl rfl
      exact moved.advance (active.updateProc id id) call held nofun rfl rfl
  · cases next
    exact sound.exitZombie active call

theorem waitScan {havekids : Bool} {k : Nat} (sound : s.Sound) (active : s.Active p)
    (call : s.call p = .wait havekids k) (next : s.waitScan p havekids k ok = some s') : s'.Sound := by
  have held : s.lock p = some p := sound.held p p (by rw [call]; rfl)
  have goOn : ∀ kids, (s.setCall p (.wait kids (k + 1))).Sound := by
    intro kids
    refine sound.advance active call ?_ nofun rfl rfl
    rintro j rfl
    exact held
  have finished := sound.finish active held
  unfold Table.waitScan at next
  split at next
  next inside =>
    split at next
    · cases next
      exact goOn havekids
    split at next
    · cases next
    split at next
    · cases next
      exact goOn true
    next zombie =>
    rw [Ne, not_not] at zombie
    split at next
    · cases next
      have fits := finished.fits ⟨k, inside⟩
      refine finished.freeproc (fits.idle (.inr zombie)) (fits.empty (.inr zombie)) fun q fork => ?_
      have unused := (fits.forked q fork).1
      rw [show ((s.setCall p .idle).setLock p none).proc = s.proc from rfl, zombie] at unused
      cases unused
    · cases next
      exact finished
  · split at next
    · cases next
      exact finished
    · cases next
      have asleep : (s.updateProc p fun proc =>
          { proc with chan := some (.proc p), state := .sleeping }).Sound := by
        refine sound.restate ?_ ?_ rfl rfl rfl rfl
        · exact iff_of_false nofun active.used
        · exact iff_of_false nofun active.alive
      refine (asleep.plain (active.updateProc nofun nofun) Call.plain_waitSleep).release fun q => ?_
      by_cases own : q = p
      · subst own
        show ¬ (Function.update s.call q .waitSleep q).Holds q q
        rw [Function.update_self]
        exact id
      · show ¬ (Function.update s.call p .waitSleep q).Holds q p
        rw [Function.update_of_ne own]
        exact sound.alone held own

end Sound

/-- A call of `kill` comes to an entry that is UNUSED and has its argument in the field `pid`. -/
def KillsFree (s : Table) : Label → Prop
  | .step p _ => ∃ pid i, (s.proc p).state = .running ∧ s.call p = .kill pid i.val ∧ s.lock i = none ∧
      (s.proc i).pid = pid ∧ (s.proc i).state = .unused
  | _ => False

namespace Sound

theorem kill {pid : BitVec 32} {k : Nat} (sound : s.Sound) (running : (s.proc p).state = .running)
    (call : s.call p = .kill pid k) (harmless : ¬ s.KillsFree (.step p ok))
    (next : s.kill p pid k = some s') : s'.Sound := by
  have active : s.Active p := .of_running running
  unfold Table.kill at next
  split at next
  next inside =>
    split at next
    · cases next
    next free =>
    rw [Ne, not_not] at free
    split at next
    · cases next
      exact sound.plain active (Call.plain_kill _ _)
    next found =>
    rw [Ne, not_not] at found
    cases next
    have used : (s.proc ⟨k, inside⟩).state ≠ .unused :=
      fun unused => harmless ⟨pid, ⟨k, inside⟩, running, call, free, found, unused⟩
    have marked : (s.mark ⟨k, inside⟩ (some pid)).Sound := by
      refine sound.mark used ?_
      rintro _ ⟨⟩
      exact found
    exact marked.wake.plain active.mark.wake Call.plain_idle
  · cases next
    exact sound.plain active Call.plain_idle

/-- One step of a call. -/
theorem next (sound : s.Sound) (running : (s.proc p).state = .running) (harmless : ¬ s.KillsFree (.step p ok))
    (next : s.next p ok = some s') : s'.Sound := by
  have active : s.Active p := .of_running running
  unfold Table.next at next
  split at next
  next => cases next
  next call => exact sound.allocproc active next
  next call =>
    cases next
    exact sound.forkRest active call
  next call =>
    cases next
    exact sound.exitFiles active call
  next call =>
    cases next
    exact sound.exitMaps active call
  next call =>
    cases next
    exact sound.advance active call (fun _ => nofun) nofun rfl rfl
  next call =>
    split at next
    · cases next
    · cases next
      exact sound.wakeup1.advance active.wakeup1 ((congrFun wakeup1_call p).trans call) (fun _ => nofun)
        nofun rfl rfl
  next call =>
    split at next
    · cases next
    unfold Table.exitRead at next
    split at next
    · cases next
      exact sound.advance active call (fun _ => nofun) nofun rfl rfl
    · cases next
  next status parent call =>
    split at next
    · cases next
    next free =>
    rw [Ne, not_not] at free
    cases next
    refine (sound.acquire free).advance ⟨active.used, active.alive⟩ call ?_ nofun rfl rfl
    rintro j rfl
    exact Function.update_self ..
  next status parent call =>
    split at next
    · cases next
    next free =>
    rw [Ne, not_not] at free
    cases next
    have held : s.lock parent = some p := sound.held p parent (by rw [call]; rfl)
    have other : parent ≠ p := by
      rintro rfl
      rw [free] at held
      cases held
    refine (sound.acquire free).advance ⟨active.used, active.alive⟩ call ?_ nofun rfl rfl
    rintro j (rfl | rfl)
    · exact (Function.update_of_ne other ..).trans held
    · exact Function.update_self ..
  next call => exact sound.reparent active call next
  next call =>
    split at next
    · cases next
    next free =>
    rw [Ne, not_not] at free
    cases next
    refine (sound.acquire free).advance ⟨active.used, active.alive⟩ call ?_ nofun rfl rfl
    rintro j rfl
    exact Function.update_self ..
  next call => exact sound.waitScan active call next
  next => cases next
  next call => exact sound.kill running call harmless next

/-- The scheduler runs a process. -/
theorem run (sound : s.Sound) (runnable : (s.proc p).state = .runnable) (free : s.lock p = none) :
    (s.run p).Sound := by
  have restated : (s.updateProc p fun proc => { proc with chan := none, state := .running }).Sound := by
    refine sound.restate ?_ ?_ rfl rfl rfl rfl
    · exact iff_of_false nofun (by rw [runnable]; exact nofun)
    · exact iff_of_false nofun (by rw [runnable]; exact nofun)
  unfold Table.run
  split
  next call =>
    refine (restated.acquire free).advance ⟨?_, ?_⟩ call ?_ nofun rfl rfl
    · show (Function.update s.proc p _ p).state ≠ _
      rw [Function.update_self]
      exact nofun
    · show (Function.update s.proc p _ p).state ≠ _
      rw [Function.update_self]
      exact nofun
    · rintro j rfl
      exact Function.update_self ..
  next => exact restated

/-- Every step but a `kill` that marks a free entry. -/
theorem step {label : Label} (sound : s.Sound) (harmless : ¬ s.KillsFree label)
    (next : s.step label = some s') : s'.Sound := by
  cases label with
  | step p ok =>
      obtain ⟨running, next⟩ := Option.ite_none_right_eq_some.mp next
      exact sound.next running harmless next
  | fork p =>
      obtain ⟨⟨running, -⟩, ⟨⟩⟩ := Option.ite_none_right_eq_some.mp next
      exact sound.plain (.of_running running) (Call.plain_allocproc 0)
  | exit p status =>
      obtain ⟨⟨running, -⟩, ⟨⟩⟩ := Option.ite_none_right_eq_some.mp next
      exact sound.plain (.of_running running) (Call.plain_exit status)
  | wait p =>
      obtain ⟨⟨running, -⟩, ⟨⟩⟩ := Option.ite_none_right_eq_some.mp next
      exact sound.plain (.of_running running) Call.plain_waitEnter
  | kill p pid =>
      obtain ⟨⟨running, -⟩, ⟨⟩⟩ := Option.ite_none_right_eq_some.mp next
      exact sound.plain (.of_running running) (Call.plain_kill pid 0)
  | trap p =>
      obtain ⟨⟨running, -⟩, ⟨⟩⟩ := Option.ite_none_right_eq_some.mp next
      exact sound.plain (.of_running running) (Call.plain_exit (-1))
  | fault p =>
      obtain ⟨⟨running, -⟩, ⟨⟩⟩ := Option.ite_none_right_eq_some.mp next
      exact sound.mark (Active.of_running running).used nofun
  | tables p ofile minfo =>
      obtain ⟨⟨running, idle⟩, ⟨⟩⟩ := Option.ite_none_right_eq_some.mp next
      have active := Active.of_running running
      refine sound.updateProc { sound.fits p with
        empty := fun dead => absurd dead (not_or.mpr ⟨active.used, active.alive⟩)
        closed := ?_
        removed := ?_ }
      · rw [idle]
        exact fun _ => nofun
      · rw [idle]
        exact fun _ => nofun
  | run p =>
      obtain ⟨⟨runnable, free⟩, ⟨⟩⟩ := Option.ite_none_right_eq_some.mp next
      exact sound.run runnable free
  | yield p =>
      obtain ⟨⟨running, -⟩, ⟨⟩⟩ := Option.ite_none_right_eq_some.mp next
      refine sound.restate ?_ ?_ rfl rfl rfl rfl
      · exact iff_of_false nofun (Active.of_running running).used
      · exact iff_of_false nofun (Active.of_running running).alive
  | sleep p chan =>
      obtain ⟨⟨running, -⟩, ⟨⟩⟩ := Option.ite_none_right_eq_some.mp next
      refine sound.restate ?_ ?_ rfl rfl rfl rfl
      · exact iff_of_false nofun (Active.of_running running).used
      · exact iff_of_false nofun (Active.of_running running).alive
  | wakeup p chan =>
      obtain ⟨-, ⟨⟩⟩ := Option.ite_none_right_eq_some.mp next
      exact sound.wake

theorem boot : Table.boot.Sound where
  held _ _ := False.elim
  fits i := by
    by_cases init : i = initproc
    · rw [show Table.boot.proc i = { state := .runnable, pid := 1 } from if_pos init]
      exact ⟨fun _ => rfl, fun _ => nofun, nofun, fun _ => ⟨fun _ => rfl, fun _ => rfl⟩, fun _ => nofun,
        fun _ => nofun, fun _ => nofun, fun _ => nofun⟩
    · rw [show Table.boot.proc i = {} from if_neg init]
      exact ⟨fun _ => rfl, fun _ => nofun, fun _ => rfl, fun _ => ⟨fun _ => rfl, fun _ => rfl⟩,
        fun _ => nofun, fun _ => nofun, fun _ => nofun, fun used => absurd rfl used⟩

end Sound

/-- What the table promises where calls are made as `allowed`. -/
structure Promises (allowed : Table → Label → Prop) (s : Table) : Prop where
  /-- The entry that `allocproc` returned is clean. -/
  clean : ∀ p np, s.call p = .fork np → (s.proc np).killed = false ∧ (s.proc np).Empty
  /-- A call of `kill` marks only a live process with its argument as pid. -/
  live : ∀ p ok s' pid k i, allowed s (.step p ok) → s.step (.step p ok) = some s' →
    s.call p = .kill pid k → s'.marks i ≠ s.marks i →
      (s.proc i).state ≠ .unused ∧ (s.proc i).pid = pid
  /-- A process that will be terminated had a fault or was killed under its own pid. -/
  terminated : ∀ i, (s.proc i).state ≠ .unused → (s.proc i).killed = true →
    s.marks i ≠ [] ∧ ∀ pid, some pid ∈ s.marks i → (s.proc i).pid = pid

/-- What the step of `kill` at one entry marks. -/
theorem marks_kill {pid : BitVec 32} {k : Nat} (next : s.kill p pid k = some s')
    (marked : s'.marks i ≠ s.marks i) :
    i.val = k ∧ s.lock i = none ∧ (s.proc i).pid = pid := by
  unfold kill at next
  split at next
  next inside =>
    split at next
    · cases next
    next free =>
    rw [Ne, not_not] at free
    split at next
    · cases next
      exact absurd rfl marked
    next found =>
    rw [Ne, not_not] at found
    cases next
    have same : i = ⟨k, inside⟩ := by
      by_contra other
      exact marked (Function.update_of_ne other ..)
    subst same
    exact ⟨rfl, free, found⟩
  · cases next
    exact absurd rfl marked

theorem Sound.promises {allowed : Table → Label → Prop} (sound : s.Sound)
    (harmless : ∀ label, allowed s label → ¬ s.KillsFree label) : s.Promises allowed where
  clean p np fork := by
    have unused := ((sound.fits np).forked p fork).1
    exact ⟨(sound.fits np).spare unused, (sound.fits np).empty (.inl unused)⟩
  live p ok s' pid k i permitted next call marked := by
    obtain ⟨running, next⟩ := Option.ite_none_right_eq_some.mp next
    rw [Table.next, call] at next
    obtain ⟨rfl, free, found⟩ := marks_kill next marked
    exact ⟨fun unused => harmless _ permitted ⟨pid, i, running, call, free, found, unused⟩, found⟩
  terminated i used killed :=
    ⟨(sound.fits i).cause used killed, fun pid listed => (sound.fits i).marked pid listed used⟩

/-- The table keeps its promises in all runs of a kind exactly when no call of `kill` in these runs comes
to a free entry that has its argument in the field `pid`. -/
theorem promises_iff (allowed : Table → Label → Prop) :
    (∀ s, system.ReachableUnder allowed s → s.Promises allowed) ↔
      ∀ s label, system.ReachableUnder allowed s → allowed s label → ¬ s.KillsFree label := by
  constructor
  · rintro promises s (⟨p, ok⟩ | _) run permitted free
    case step =>
      obtain ⟨pid, i, running, call, unlocked, found, unused⟩ := free
      have next : s.step (.step p ok) = some (((s.mark i (some pid)).wake i).setCall p .idle) := by
        simp only [step, running, if_true, next, call, kill, i.isLt, dif_pos, unlocked, found]
        simp
      have marked : (((s.mark i (some pid)).wake i).setCall p .idle).marks i ≠ s.marks i := by
        rw [show (((s.mark i (some pid)).wake i).setCall p .idle).marks i = some pid :: s.marks i from
          Function.update_self ..]
        exact List.cons_ne_self _ _
      exact ((promises s run).live p ok _ pid i i permitted next call marked).1 unused
    all_goals exact free
  · intro harmless s run
    have sound : s.Sound := by
      induction run with
      | initial start =>
          cases start
          exact Sound.boot
      | step prior permitted next sound => exact sound.step (harmless _ _ prior permitted) next
    exact sound.promises fun label => harmless s label run

/-- Some steps, one after the other. -/
def steps (s : Table) (labels : List Label) : Option Table := labels.foldlM step s

theorem reachable_steps {labels : List Label} (start : system.Reachable s)
    (run : s.steps labels = some s') : system.Reachable s' := by
  induction labels generalizing s with
  | nil =>
      cases run
      exact start
  | cons label rest ih =>
      obtain ⟨middle, first, run⟩ := Option.bind_eq_some_iff.mp run
      exact ih (.step start trivial first) run

/-- A child of `init` calls `kill(0)` and then `fork`. -/
def killZero : List Label :=
  [.run 0, .fork 0, .step 0 true, .step 0 true, .step 0 true, .yield 0, .run 1, .kill 1 0, .step 1 true,
    .step 1 true, .step 1 true, .fork 1, .step 1 true, .step 1 true, .step 1 true]

/-- The process that `allocproc` returns is killed already. -/
theorem born_killed : ∃ s, system.Reachable s ∧ s.call 1 = .fork 2 ∧ (s.proc 2).killed = true ∧
    ¬ s.Promises fun _ _ => True := by
  have run : ∃ s, boot.steps killZero = some s ∧ s.call 1 = .fork 2 ∧ (s.proc 2).killed = true :=
    ⟨_, rfl, rfl, rfl⟩
  obtain ⟨s, run, call, killed⟩ := run
  refine ⟨s, reachable_steps (.initial rfl) run, call, killed, fun promises => ?_⟩
  have clean := (promises.clean 1 2 call).1
  rw [killed] at clean
  cases clean

end Table

end Riscv2os.Xv7.ProcTable
