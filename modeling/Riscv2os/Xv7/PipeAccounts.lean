import Mathlib.Data.Finsupp.Weight
import Riscv2os.Xv7.Pipe

/-!
# What readers and writers of a pipe are told

Beside a run of the pipe a ledger counts the bytes that each call of `pipewrite` has put into the pipe, those
that each call of `piperead` has taken from it and those that reached the memory of the reader, and what the
calls return. The books balance as long as no copy fails halfway and no writer gives up halfway.
-/

namespace Riscv2os.Xv7

open Riscv2os.Std

/-- A call of `piperead` that has returned. -/
structure PipeReading where
  consumed : Nat
  delivered : Nat
  result : Int

/-- The counts of the calls that run, by thread, and the calls that have returned. Of a call of `pipewrite`
that is the number of bytes it put into the pipe, and its result. -/
structure PipeLedger where
  placed : Nat →₀ Nat
  consumed : Nat → Nat
  delivered : Nat → Nat
  writes : List (Nat × Int)
  reads : List PipeReading
  deliveries : Nat

namespace PipeLedger

/-- `pipewrite` returns. -/
noncomputable def wrote (l : PipeLedger) (t : Nat) (result : Int) : PipeLedger :=
  { l with writes := l.writes ++ [(l.placed t, result)], placed := l.placed.erase t }

/-- `piperead` returns. -/
def read (l : PipeLedger) (t : Nat) (result : Int) : PipeLedger :=
  { l with
    reads := l.reads ++ [⟨l.consumed t, l.delivered t, result⟩]
    consumed := Function.update l.consumed t 0
    delivered := Function.update l.delivered t 0 }

/-- A byte is in the pipe. -/
noncomputable def place (l : PipeLedger) (t : Nat) : PipeLedger :=
  { l with placed := l.placed + Finsupp.single t 1 }

/-- A byte has left the pipe. -/
def consume (l : PipeLedger) (t : Nat) : PipeLedger :=
  { l with consumed := Function.update l.consumed t (l.consumed t + 1) }

/-- A byte has reached the reader. -/
def deliver (l : PipeLedger) (t : Nat) : PipeLedger :=
  { l with
    delivered := Function.update l.delivered t (l.delivered t + 1)
    deliveries := l.deliveries + 1 }

open Classical in
/-- What a step of the pipe adds to the ledger. -/
noncomputable def record (l : PipeLedger) (s : PipeSys) : PipeAct → PipeLedger
  | .write t copyin =>
      match (s.thread t).pc with
      | .write n i =>
          if i < n then
            if s.pipe.full then
              if s.pipe.readopen = false ∨ (s.thread t).killed = true then l.wrote t (-1) else l
            else if copyin.isSome then l.place t
            else l.wrote t n
          else l.wrote t n
      | _ => l
  | .wait t =>
      match (s.thread t).pc with
      | .readWait _ =>
          if s.pipe.empty = true ∧ s.pipe.writeopen = true ∧ (s.thread t).killed = true then l.read t (-1)
          else l
      | _ => l
  | .read t copyout =>
      match (s.thread t).pc with
      | .read n i =>
          if i < n ∧ s.pipe.empty = false then
            if copyout then (l.consume t).deliver t else (l.consume t).read t i
          else l.read t i
      | _ => l
  | _ => l

/-- The bytes that the callers of `pipewrite` were told of. -/
def reported (l : PipeLedger) : Nat := (l.writes.map fun w => w.2.toNat).sum

end PipeLedger

/-- A pipe with its ledger. -/
structure PipeBooks where
  sys : PipeSys
  ledger : PipeLedger

/-- A step of the pipe, which is recorded. -/
def PipeBooks.Step (b : PipeBooks) (act : PipeAct) (b' : PipeBooks) : Prop :=
  PipeStep b.sys act b'.sys ∧ b'.ledger = b.ledger.record b.sys act

/-- A pipe with its ledger from `pipealloc` on. -/
def pipeBooks : TransitionSystem PipeBooks PipeAct where
  Initial b := pipeSystem.Initial b.sys ∧ b.ledger = ⟨0, fun _ => 0, fun _ => 0, [], [], 0⟩
  Step := PipeBooks.Step

/-- Results are the numbers of bytes that went through, or -1, and no byte is lost: those reported as written,
with those of the calls that still run, have been delivered or are in the pipe. -/
structure PipeBooks.Balanced (b : PipeBooks) : Prop where
  writes : ∀ w ∈ b.ledger.writes, w.2 = w.1 ∨ w.2 = -1
  reads : ∀ r ∈ b.ledger.reads, r.consumed = r.delivered ∧ (r.result = r.delivered ∨ r.result = -1)
  ongoing : ∀ t, b.ledger.consumed t = b.ledger.delivered t
  balance : b.ledger.reported + b.ledger.placed.degree =
    b.ledger.deliveries + (b.sys.pipe.ring.nwrite - b.sys.pipe.ring.nread).toNat

/-- No byte that a round needs is unmapped, no length is below -1, and a writer that gives up has not written
anything. -/
def PipeSys.Smooth (s : PipeSys) : PipeAct → Prop
  | .write t copyin => ∀ n i, (s.thread t).pc = .write n i →
      (i < n → s.pipe.full = false → copyin.isSome) ∧ (¬ i < n → -1 ≤ n) ∧
      (i < n → s.pipe.full = true → s.pipe.readopen = false ∨ (s.thread t).killed = true → i = 0)
  | .read t copyout => ∀ n i, (s.thread t).pc = .read n i → i < n → s.pipe.empty = false → copyout = true
  | _ => True

/-- The rounds of its loop that a writer has done. -/
def PipePc.writeRound : PipePc → Int
  | .write _ i => i
  | .writeSleep _ i => i
  | _ => 0

/-- The rounds of its loop that a reader has done. -/
def PipePc.readRound : PipePc → Int
  | .read _ i => i
  | _ => 0

/-- A writer does no more rounds than it was asked for. -/
def PipePc.Within : PipePc → Prop
  | .write n i => i ≤ max n 0
  | .writeSleep n i => i ≤ max n 0
  | _ => True

namespace PipeBooks

variable {b b' : PipeBooks} {act : PipeAct}

/-- What holds in every run, with or without failing copies, as long as no reader has lost a byte. -/
structure Counted (b : PipeBooks) : Prop where
  pipe : PipeInv b.sys
  within : ∀ t, (b.sys.thread t).pc.Within
  placed : ∀ t, (b.ledger.placed t : Int) = (b.sys.thread t).pc.writeRound
  consumed : ∀ t, (b.ledger.consumed t : Int) = (b.sys.thread t).pc.readRound
  delivered : ∀ t, (b.ledger.delivered t : Int) = (b.sys.thread t).pc.readRound
  sent : b.ledger.reported + b.ledger.placed.degree = b.sys.sent.length
  received : b.ledger.deliveries = b.sys.received.length
  writes : ∀ w ∈ b.ledger.writes, w.2 = w.1 ∨ w.2 = -1
  reads : ∀ r ∈ b.ledger.reads, r.consumed = r.delivered ∧ (r.result = r.delivered ∨ r.result = -1)

theorem Counted.balanced (counted : b.Counted) : b.Balanced where
  writes := counted.writes
  reads := counted.reads
  ongoing t := by
    have := (counted.consumed t).trans (counted.delivered t).symm
    omega
  balance := by
    have pending := counted.pipe.pending (by decide)
    have order := counted.pipe.order.length_le
    rw [counted.sent, pending, counted.received]
    omega

end PipeBooks

namespace PipeSys

variable {s : PipeSys} {t t' : Nat} {pc : PipePc} {chan : Channel}

@[simp] theorem pc_moveTo : ((s.moveTo t pc).thread t').pc = if t' = t then pc else (s.thread t').pc := by
  by_cases same : t' = t
  · subst same
    simp [moveTo]
  · simp [moveTo, same]

@[simp] theorem pc_wakeup : ((s.wakeup chan).thread t').pc = (s.thread t').pc := by
  simp only [wakeup]
  split <;> rfl

@[simp] theorem pc_sleep : ((s.sleep t chan pc).thread t').pc = if t' = t then pc else (s.thread t').pc := by
  by_cases same : t' = t
  · subst same
    simp [sleep]
  · simp [sleep, same]

@[simp] theorem pc_leave : ((s.leave t).thread t').pc = if t' = t then .outside else (s.thread t').pc :=
  pc_moveTo

end PipeSys

namespace PipeLedger

variable {l : PipeLedger} {t : Nat} {result : Int}

theorem reported_wrote : (l.wrote t result).reported = l.reported + result.toNat := by
  simp [reported, wrote]

theorem degree_wrote (l : PipeLedger) (t : Nat) (result : Int) :
    (l.wrote t result).placed.degree + l.placed t = l.placed.degree := by
  have split := congrArg Finsupp.degree (Finsupp.erase_add_single t l.placed)
  rw [map_add, Finsupp.degree_single] at split
  exact split

theorem degree_place : (l.place t).placed.degree = l.placed.degree + 1 := by
  simp [place]

theorem placed_wrote (t' : Nat) : (l.wrote t result).placed t' = if t' = t then 0 else l.placed t' := by
  simp [wrote, Finsupp.erase_apply]

theorem placed_place (t' : Nat) : (l.place t).placed t' = l.placed t' + if t' = t then 1 else 0 := by
  simp [place, Finsupp.single_apply, eq_comm]

end PipeLedger

namespace PipeBooks

variable {b b' : PipeBooks} {act : PipeAct} {t : Nat} {n i : Int}

namespace Counted

/-- Nobody does a round, and nothing is recorded. -/
theorem quiet (counted : b.Counted) (same : b'.ledger = b.ledger) (pipe : PipeInv b'.sys)
    (sent : b'.sys.sent = b.sys.sent) (received : b'.sys.received = b.sys.received)
    (within : ∀ t, (b'.sys.thread t).pc.Within)
    (writers : ∀ t, (b'.sys.thread t).pc.writeRound = (b.sys.thread t).pc.writeRound)
    (readers : ∀ t, (b'.sys.thread t).pc.readRound = (b.sys.thread t).pc.readRound) : b'.Counted where
  pipe := pipe
  within := within
  placed t := by rw [same, writers, counted.placed]
  consumed t := by rw [same, readers, counted.consumed]
  delivered t := by rw [same, readers, counted.delivered]
  sent := by rw [same, sent, counted.sent]
  received := by rw [same, received, counted.received]
  writes := by
    rw [same]
    exact counted.writes
  reads := by
    rw [same]
    exact counted.reads

/-- No thread moves. -/
theorem same (counted : b.Counted) (same : b'.ledger = b.ledger) (pipe : PipeInv b'.sys)
    (sent : b'.sys.sent = b.sys.sent) (received : b'.sys.received = b.sys.received)
    (threads : ∀ t, (b'.sys.thread t).pc = (b.sys.thread t).pc) : b'.Counted := by
  refine counted.quiet same pipe sent received (fun t => ?_) (fun t => ?_) fun t => ?_
  · rw [threads]
    exact counted.within t
  · rw [threads]
  · rw [threads]

/-- A thread goes on to another place of the same round. -/
theorem move (counted : b.Counted) (same : b'.ledger = b.ledger) (pipe : PipeInv b'.sys)
    (sent : b'.sys.sent = b.sys.sent) (received : b'.sys.received = b.sys.received) {pc pc' : PipePc}
    (before : (b.sys.thread t).pc = pc)
    (threads : ∀ t', (b'.sys.thread t').pc = if t' = t then pc' else (b.sys.thread t').pc)
    (within : pc.Within → pc'.Within)
    (writeRound : pc'.writeRound = pc.writeRound) (readRound : pc'.readRound = pc.readRound) :
    b'.Counted := by
  refine counted.quiet same pipe sent received (fun t' => ?_) (fun t' => ?_) fun t' => ?_
  · rw [threads]
    split
    · exact within (before ▸ counted.within t)
    · exact counted.within t'
  · rw [threads]
    split
    · next here => rw [here, before, writeRound]
    · rfl
  · rw [threads]
    split
    · next here => rw [here, before, readRound]
    · rfl

/-- A writer returns what it has placed, or -1 without having placed anything. -/
theorem wrote {result : Int} (counted : b.Counted) (recorded : b'.ledger = b.ledger.wrote t result)
    (pipe : PipeInv b'.sys) (sent : b'.sys.sent = b.sys.sent) (received : b'.sys.received = b.sys.received)
    (threads : ∀ t', (b'.sys.thread t').pc = if t' = t then .outside else (b.sys.thread t').pc)
    (pc : (b.sys.thread t).pc = .write n i)
    (told : result = i ∨ result = -1 ∧ i = 0) : b'.Counted := by
  have placed := counted.placed t
  rw [pc, PipePc.writeRound] at placed
  refine ⟨pipe, fun t' => ?_, fun t' => ?_, fun t' => ?_, fun t' => ?_, ?_, ?_, ?_, ?_⟩
  · rw [threads]
    split
    · trivial
    · exact counted.within t'
  · rw [recorded, PipeLedger.placed_wrote, threads]
    split
    · rfl
    · exact counted.placed t'
  · rw [recorded, threads]
    split
    · next same =>
      have := counted.consumed t
      rw [pc] at this
      rw [same]
      exact this
    · exact counted.consumed t'
  · rw [recorded, threads]
    split
    · next same =>
      have := counted.delivered t
      rw [pc] at this
      rw [same]
      exact this
    · exact counted.delivered t'
  · have before := counted.sent
    have degree := PipeLedger.degree_wrote b.ledger t result
    rw [recorded, PipeLedger.reported_wrote, sent]
    omega
  · rw [recorded, received]
    exact counted.received
  · rw [recorded]
    intro w listed
    rcases List.mem_append.mp listed with old | new
    · exact counted.writes w old
    · obtain rfl := List.mem_singleton.mp new
      rcases told with rfl | ⟨rfl, _⟩
      · exact .inl placed.symm
      · exact .inr rfl
  · rw [recorded]
    exact counted.reads

/-- A reader returns with the number of rounds that it has done, or -1. -/
theorem read {result : Int} (counted : b.Counted) (recorded : b'.ledger = b.ledger.read t result)
    (pipe : PipeInv b'.sys) (sent : b'.sys.sent = b.sys.sent) (received : b'.sys.received = b.sys.received)
    (threads : ∀ t', (b'.sys.thread t').pc = if t' = t then .outside else (b.sys.thread t').pc)
    (idle : (b.sys.thread t).pc.writeRound = 0)
    (told : result = (b.sys.thread t).pc.readRound ∨ result = -1) : b'.Counted := by
  have consumed := counted.consumed t
  have delivered := counted.delivered t
  refine ⟨pipe, fun t' => ?_, fun t' => ?_, fun t' => ?_, fun t' => ?_, ?_, ?_, ?_, ?_⟩
  · rw [threads]
    split
    · trivial
    · exact counted.within t'
  · rw [recorded, threads]
    split
    · next same =>
      rw [same]
      exact (counted.placed t).trans idle
    · exact counted.placed t'
  · rw [recorded, threads]
    by_cases same : t' = t
    · subst same
      simp [PipeLedger.read, PipePc.readRound]
    · simpa [PipeLedger.read, same] using counted.consumed t'
  · rw [recorded, threads]
    by_cases same : t' = t
    · subst same
      simp [PipeLedger.read, PipePc.readRound]
    · simpa [PipeLedger.read, same] using counted.delivered t'
  · rw [recorded, sent]
    exact counted.sent
  · rw [recorded, received]
    exact counted.received
  · rw [recorded]
    exact counted.writes
  · rw [recorded]
    intro r listed
    rcases List.mem_append.mp listed with old | new
    · exact counted.reads r old
    · obtain rfl := List.mem_singleton.mp new
      refine ⟨by simp only; omega, told.imp_left fun same => ?_⟩
      rw [same]
      exact delivered.symm

/-- A writer has placed a byte. -/
theorem place (counted : b.Counted) (recorded : b'.ledger = b.ledger.place t) (pipe : PipeInv b'.sys)
    (sent : b'.sys.sent.length = b.sys.sent.length + 1) (received : b'.sys.received = b.sys.received)
    (threads : ∀ t', (b'.sys.thread t').pc = if t' = t then .write n (i + 1) else (b.sys.thread t').pc)
    (pc : (b.sys.thread t).pc = .write n i) (more : i < n) : b'.Counted := by
  have placed := counted.placed t
  have consumed := counted.consumed t
  have delivered := counted.delivered t
  rw [pc] at placed consumed delivered
  refine ⟨pipe, fun t' => ?_, fun t' => ?_, fun t' => ?_, fun t' => ?_, ?_, ?_, ?_, ?_⟩
  · rw [threads]
    split
    · simp only [PipePc.Within]
      omega
    · exact counted.within t'
  · rw [recorded, PipeLedger.placed_place, threads]
    by_cases here : t' = t
    · subst here
      rw [if_pos rfl, if_pos rfl, Nat.cast_add, placed]
      rfl
    · simpa [here] using counted.placed t'
  · rw [recorded, threads]
    split
    · next here =>
      rw [here]
      exact consumed
    · exact counted.consumed t'
  · rw [recorded, threads]
    split
    · next here =>
      rw [here]
      exact delivered
    · exact counted.delivered t'
  · have before := counted.sent
    rw [recorded, PipeLedger.degree_place, sent]
    show b.ledger.reported + _ = _
    omega
  · rw [recorded, received]
    exact counted.received
  · rw [recorded]
    exact counted.writes
  · rw [recorded]
    exact counted.reads

/-- A byte has gone from the pipe to the reader. -/
theorem deliver (counted : b.Counted) (recorded : b'.ledger = (b.ledger.consume t).deliver t)
    (pipe : PipeInv b'.sys) (sent : b'.sys.sent = b.sys.sent)
    (received : b'.sys.received.length = b.sys.received.length + 1)
    (threads : ∀ t', (b'.sys.thread t').pc = if t' = t then .read n (i + 1) else (b.sys.thread t').pc)
    (pc : (b.sys.thread t).pc = .read n i) : b'.Counted := by
  have placed := counted.placed t
  have consumed := counted.consumed t
  have delivered := counted.delivered t
  rw [pc] at placed consumed delivered
  refine ⟨pipe, fun t' => ?_, fun t' => ?_, fun t' => ?_, fun t' => ?_, ?_, ?_, ?_, ?_⟩
  · rw [threads]
    split
    · trivial
    · exact counted.within t'
  · rw [recorded, threads]
    split
    · next here =>
      rw [here]
      exact placed
    · exact counted.placed t'
  · rw [recorded, threads]
    by_cases here : t' = t
    · subst here
      simpa [PipeLedger.deliver, PipeLedger.consume, PipePc.readRound] using consumed
    · simpa [PipeLedger.deliver, PipeLedger.consume, here] using counted.consumed t'
  · rw [recorded, threads]
    by_cases here : t' = t
    · subst here
      simpa [PipeLedger.deliver, PipeLedger.consume, PipePc.readRound] using delivered
    · simpa [PipeLedger.deliver, PipeLedger.consume, here] using counted.delivered t'
  · rw [recorded, sent]
    exact counted.sent
  · rw [recorded, received, ← counted.received]
    rfl
  · rw [recorded]
    exact counted.writes
  · rw [recorded]
    exact counted.reads

end Counted

/-- Under the condition a step keeps the counts. -/
theorem Counted.step (counted : b.Counted) (smooth : b.sys.Smooth act) (step : b.Step act b') : b'.Counted := by
  obtain ⟨step, recorded⟩ := step
  have pipe := step.pipeInv counted.pipe
  obtain ⟨s', l'⟩ := b'
  simp only at step recorded pipe
  subst recorded
  cases step with
  | callWrite outside =>
      exact counted.move rfl pipe rfl rfl outside (fun _ => PipeSys.pc_moveTo) (fun _ => trivial) rfl rfl
  | callRead outside =>
      exact counted.move rfl pipe rfl rfl outside (fun _ => PipeSys.pc_moveTo) (fun _ => trivial) rfl rfl
  | enterWrite pc free =>
      exact counted.move rfl pipe rfl rfl pc (fun _ => PipeSys.pc_moveTo) (fun _ => le_max_right ..) rfl rfl
  | enterRead pc free =>
      exact counted.move rfl pipe rfl rfl pc (fun _ => PipeSys.pc_moveTo) (fun _ => trivial) rfl rfl
  | wakeWrite pc awake free =>
      exact counted.move rfl pipe rfl rfl pc (fun _ => PipeSys.pc_moveTo) id rfl rfl
  | wakeRead pc awake free =>
      exact counted.move rfl pipe rfl rfl pc (fun _ => PipeSys.pc_moveTo) (fun _ => trivial) rfl rfl
  | @writeDone t n i copyin pc held done =>
      have recorded : b.ledger.record b.sys (.write t copyin) = b.ledger.wrote t n := by
        simp [PipeLedger.record, pc, done]
      have low := (smooth n i pc).2.1 done
      have placed := counted.placed t
      have within := counted.within t
      rw [pc, PipePc.writeRound] at placed
      rw [pc, PipePc.Within] at within
      refine counted.wrote recorded pipe rfl rfl (fun _ => ?_) pc (by omega)
      rw [PipeSys.pc_leave, PipeSys.pc_wakeup]
  | @writeFails t n i copyin pc held more full hopeless =>
      have recorded : b.ledger.record b.sys (.write t copyin) = b.ledger.wrote t (-1) := by
        simp [PipeLedger.record, pc, more, full, hopeless]
      exact counted.wrote recorded pipe rfl rfl (fun _ => PipeSys.pc_leave) pc
        (.inr ⟨rfl, (smooth n i pc).2.2 more full hopeless⟩)
  | @writeSleeps t n i copyin pc held more full hope =>
      have recorded : b.ledger.record b.sys (.write t copyin) = b.ledger := by
        simp only [PipeLedger.record, pc, if_pos more, full, if_true, if_neg hope]
      have threads : ∀ t', (((b.sys.wakeup .nread).sleep t .nwrite (.writeSleep n i)).thread t').pc =
          if t' = t then .writeSleep n i else (b.sys.thread t').pc := fun t' => by
        rw [PipeSys.pc_sleep, PipeSys.pc_wakeup]
      exact counted.move recorded pipe rfl rfl pc threads id rfl rfl
  | @writeUnmapped t n i pc held more room =>
      exact absurd ((smooth n i pc).1 more room) Bool.false_ne_true
  | @writeByte t n i ch pc held more room =>
      have recorded : b.ledger.record b.sys (.write t (some ch)) = b.ledger.place t := by
        simp [PipeLedger.record, pc, more, room]
      exact counted.place recorded pipe (List.length_append ..) rfl (fun _ => PipeSys.pc_moveTo) pc more
  | @waitFails t n pc held empty open_ killed =>
      have recorded : b.ledger.record b.sys (.wait t) = b.ledger.read t (-1) := by
        simp [PipeLedger.record, pc, empty, open_, killed]
      exact counted.read recorded pipe rfl rfl (fun _ => PipeSys.pc_leave) (by rw [pc]; rfl) (.inr rfl)
  | @waitSleeps t n pc held empty open_ alive =>
      have recorded : b.ledger.record b.sys (.wait t) = b.ledger := by
        simp [PipeLedger.record, pc, alive]
      exact counted.move recorded pipe rfl rfl pc (fun _ => PipeSys.pc_sleep) (fun _ => trivial) rfl rfl
  | @waitEnds t n pc held ready =>
      have recorded : b.ledger.record b.sys (.wait t) = b.ledger := by
        simp only [PipeLedger.record, pc]
        exact if_neg fun all => ready ⟨all.1, all.2.1⟩
      exact counted.move recorded pipe rfl rfl pc (fun _ => PipeSys.pc_moveTo) (fun _ => trivial) rfl rfl
  | @readDone t n i copyout pc held done =>
      have recorded : b.ledger.record b.sys (.read t copyout) = b.ledger.read t i := by
        simp only [PipeLedger.record, pc]
        refine if_neg fun more => ?_
        rcases done with last | empty
        · exact last more.1
        · rw [empty] at more
          cases more.2
      refine counted.read recorded pipe rfl rfl (fun _ => ?_) (by rw [pc]; rfl) (.inl (by rw [pc]; rfl))
      rw [PipeSys.pc_leave, PipeSys.pc_wakeup]
  | @readByte t n i pc held more some_ =>
      have recorded : b.ledger.record b.sys (.read t true) = (b.ledger.consume t).deliver t := by
        simp [PipeLedger.record, pc, more, some_]
      exact counted.deliver recorded pipe rfl (List.length_append ..) (fun _ => PipeSys.pc_moveTo) pc
  | @readUnmapped t n i pc held more some_ =>
      exact absurd (smooth n i pc more some_) Bool.false_ne_true
  | @kill t =>
      exact counted.same rfl pipe rfl rfl fun t' => by
        by_cases here : t' = t
        · subst here
          simp
        · simp [here]
  | closeWrite free => exact counted.same rfl pipe rfl rfl fun _ => PipeSys.pc_wakeup
  | closeRead free => exact counted.same rfl pipe rfl rfl fun _ => PipeSys.pc_wakeup

theorem Counted.initial (start : pipeBooks.Initial b) : b.Counted := by
  obtain ⟨start, ledger⟩ := start
  obtain ⟨_, _, outside, sent, received⟩ := id start
  refine ⟨.initial start, fun t => ?_, fun t => ?_, fun t => ?_, fun t => ?_, ?_, ?_, ?_, ?_⟩
  · rw [outside]
    trivial
  · rw [ledger, outside]
    rfl
  · rw [ledger, outside]
    rfl
  · rw [ledger, outside]
    rfl
  · rw [ledger, sent]
    simp [PipeLedger.reported]
  · rw [ledger, received]
    rfl
  · rw [ledger]
    exact fun w listed => absurd listed List.not_mem_nil
  · rw [ledger]
    exact fun r listed => absurd listed List.not_mem_nil

/-- A step that does not meet the condition makes a result wrong, or loses a byte. -/
theorem Counted.unbalanced (counted : b.Counted) (rough : ¬ b.sys.Smooth act) (step : b.Step act b') :
    ¬ b'.Balanced := by
  obtain ⟨s', l'⟩ := b'
  obtain ⟨step, recorded⟩ := step
  simp only at step recorded
  intro balanced
  cases act with
  | write t copyin =>
      simp only [PipeSys.Smooth, not_forall] at rough
      obtain ⟨n, i, pc, rough⟩ := rough
      have placed := counted.placed t
      have within := counted.within t
      rw [pc, PipePc.writeRound] at placed
      rw [pc, PipePc.Within] at within
      -- a result that is not what was placed
      have wrong : n ≠ i → n ≠ -1 → l' ≠ b.ledger.wrote t n := by
        intro differ noError recorded
        have entry := balanced.writes (b.ledger.placed t, n) (by
          rw [recorded]
          exact List.mem_append_right _ (List.mem_singleton_self _))
        simp only at entry
        omega
      by_cases more : i < n
      · by_cases full : b.sys.pipe.full = true
        · -- the writer gives up
          have gives : (b.sys.pipe.readopen = false ∨ (b.sys.thread t).killed = true) ∧ i ≠ 0 := by
            simp only [more, full] at rough
            by_contra smooth
            exact rough ⟨by simp, by simp, fun _ _ hopeless => by
              by_contra some_
              exact smooth ⟨hopeless, some_⟩⟩
          have recorded' : l' = b.ledger.wrote t (-1) := by
            rw [recorded]
            simp [PipeLedger.record, pc, more, full, gives.1]
          have pipe : s'.pipe = b.sys.pipe := by
            cases step with
            | writeByte _ _ _ room => cases full.symm.trans room
            | _ => rfl
          have before := counted.balanced.balance
          have after := balanced.balance
          have degree := PipeLedger.degree_wrote b.ledger t (-1)
          simp only [recorded', PipeLedger.reported_wrote, pipe] at after
          have same : (b.ledger.wrote t (-1)).deliveries = b.ledger.deliveries := rfl
          have nothing : (-1 : Int).toNat = 0 := rfl
          omega
        · have unmapped : copyin.isSome = false := by
            simp only [more, full] at rough
            by_contra some_
            exact rough ⟨fun _ _ => Bool.eq_true_of_not_eq_false some_, by simp, by simp⟩
          refine wrong (by omega) (by omega) ?_
          rw [recorded]
          simp [PipeLedger.record, pc, more, full, unmapped]
      · have below : n < -1 := by
          simp only [more] at rough
          by_contra above
          exact rough ⟨by simp, fun _ => by omega, by simp⟩
        refine wrong (by omega) (by omega) ?_
        rw [recorded]
        simp [PipeLedger.record, pc, more]
  | read t copyout =>
      simp only [PipeSys.Smooth, not_forall] at rough
      obtain ⟨n, i, pc, more, some_, unmapped⟩ := rough
      have recorded' : l' = (b.ledger.consume t).read t i := by
        rw [recorded]
        simp [PipeLedger.record, pc, more, some_, unmapped]
      have consumed := counted.consumed t
      have delivered := counted.delivered t
      have entry := balanced.reads ⟨(b.ledger.consume t).consumed t, (b.ledger.consume t).delivered t, i⟩ (by
        rw [recorded']
        exact List.mem_append_right _ (List.mem_singleton_self _))
      have lost : (b.ledger.consume t).consumed t = b.ledger.consumed t + 1 := Function.update_self ..
      have same : (b.ledger.consume t).delivered t = b.ledger.delivered t := rfl
      simp only [lost, same] at entry
      omega
  | _ => exact rough trivial

/-- The runs whose steps meet the condition. -/
abbrev Run : PipeBooks → Prop := pipeBooks.ReachableUnder fun b act => b.sys.Smooth act

theorem Run.counted (run : Run b) : b.Counted :=
  TransitionSystem.ReachableUnder.invariant
    ⟨Counted.initial, fun counted smooth step => counted.step smooth step⟩ run

/-- The books balance in every run whose steps meet the condition, and no longer after the first step that
does not. -/
theorem balanced_iff (run : Run b) :
    b.Balanced ∧ ∀ act b', pipeBooks.Step b act b' → (b'.Balanced ↔ b.sys.Smooth act) := by
  refine ⟨run.counted.balanced, fun act b' step => ⟨fun balanced => ?_, fun smooth => ?_⟩⟩
  · by_contra rough
    exact run.counted.unbalanced rough step balanced
  · exact (run.counted.step smooth step).balanced

/-- A new pipe that nobody uses, with an empty ledger. -/
noncomputable def idle : PipeBooks := ⟨idlePipe, ⟨0, fun _ => 0, fun _ => 0, [], [], 0⟩⟩

theorem Run.idle : Run idle := .initial ⟨⟨⟨_, rfl⟩, rfl, fun _ => rfl, rfl, rfl⟩, rfl⟩

theorem Run.step {s' : PipeSys} (run : Run b) (step : PipeStep b.sys act s') (smooth : b.sys.Smooth act) :
    Run ⟨s', b.ledger.record b.sys act⟩ :=
  TransitionSystem.ReachableUnder.step run smooth ⟨step, rfl⟩

/-- Thread 0 is about to write one byte. -/
theorem Run.writer : ∃ b, Run b ∧ (b.sys.thread 0).pc = .write 1 0 ∧ b.sys.lock = some 0 ∧
    b.sys.pipe = idlePipe.pipe ∧ b.sys.sent = [] := by
  have called := Run.idle.step (.callWrite (t := 0) (n := 1) rfl) trivial
  have entered := called.step (.enterWrite (t := 0) rfl rfl) trivial
  exact ⟨_, entered, rfl, rfl, rfl, rfl⟩

/-- Thread 0 writes a byte, and the books balance. -/
theorem balanced_oneByte : ∃ b : PipeBooks, b.sys.sent = [7] ∧ b.Balanced := by
  obtain ⟨b, run, pc, held, pipe, sent⟩ := Run.writer
  have room : b.sys.pipe.full = false := by
    rw [pipe]
    decide
  have step := @PipeStep.writeByte b.sys 0 1 0 7 pc held (by decide) room
  refine ⟨_, ?_, (balanced_iff (run.step step fun n i here => ?_)).1⟩
  · exact congrArg (· ++ [7]) sent
  · cases pc.symm.trans here
    exact ⟨fun _ _ => rfl, by decide, fun _ full => by cases room.symm.trans full⟩

/-- The byte that thread 0 writes is not mapped, and it is told that the byte was written. -/
theorem unbalanced_unmapped : ¬ ∀ b, pipeBooks.Reachable b → b.Balanced := by
  intro claim
  obtain ⟨b, run, pc, held, pipe, _⟩ := Run.writer
  have room : b.sys.pipe.full = false := by
    rw [pipe]
    decide
  have step : b.Step (.write 0 none) ⟨_, b.ledger.record b.sys (.write 0 none)⟩ :=
    ⟨@PipeStep.writeUnmapped b.sys 0 1 0 pc held (by decide) room, rfl⟩
  refine run.counted.unbalanced (fun smooth => ?_) step (claim _ ((run.mono fun _ => trivial).step trivial step))
  exact absurd ((smooth 1 0 pc).1 (by decide) room) Bool.false_ne_true

end PipeBooks

end Riscv2os.Xv7
