import Riscv2os.Std.TransitionSystem
import Riscv2os.Xv7.Sockets

/-!
# The receive queue of a socket

`mbufq_init`, `mbufq_pushtail`, `mbufq_pophead` and `mbufq_empty` of `net.c` over runs. The tail of an empty
queue has no meaning: `mbufq_init` leaves it as it is, and `mbufq_pophead` does not change it.
-/

namespace Riscv2os.Xv7

open Riscv2os.Std
open LinkedList (IsQueue)

namespace Net

/-- `mbufq_init`. -/
def mbufqInit (s : Net) (so : Nat) : Net :=
  s.setSock so fun sock => { sock with rxq := { sock.rxq with head := 0 } }

/-- `mbufq_empty`. -/
def mbufqEmpty (s : Net) (so : Nat) : Bool := (s.sock so).rxq.head == 0

/-- The packet buffers `waiting` are in the queue of a socket, in this order. -/
def Queued (s : Net) (so : Nat) (waiting : List Nat) : Prop :=
  IsQueue (fun m => (s.mbuf m).next) 0 (s.sock so).rxq.head (s.sock so).rxq.tail waiting

variable {s s' : Net} {so m : Nat} {waiting : List Nat}

@[simp] theorem setSock_self (s : Net) (so : Nat) (f : Sock → Sock) :
    (s.setSock so f).sock so = f (s.sock so) := Function.update_self ..

theorem setSock_of_ne (s : Net) {so other : Nat} (f : Sock → Sock) (apart : other ≠ so) :
    (s.setSock so f).sock other = s.sock other := Function.update_of_ne apart ..

/-- `mbufq_pushtail` changes a queue and nothing else. -/
theorem mbufqPushtail_kept (s : Net) (so m : Nat) :
    (s.mbufqPushtail so m).sockets = s.sockets ∧ (s.mbufqPushtail so m).freelist = s.freelist ∧
      (s.mbufqPushtail so m).freeFiles = s.freeFiles ∧ (s.mbufqPushtail so m).nlock = s.nlock := by
  unfold mbufqPushtail
  simp only
  split <;> exact ⟨rfl, rfl, rfl, rfl⟩

theorem mbufqPushtail_sock (s : Net) (so m : Nat) : (s.mbufqPushtail so m).sock =
    Function.update s.sock so { s.sock so with
      rxq := if (s.sock so).rxq.head = 0 then ⟨m, m⟩ else { (s.sock so).rxq with tail := m } } := by
  unfold mbufqPushtail
  by_cases empty : (s.sock so).rxq.head = 0
  · simp [setSock, setMbuf, empty]
  · simp [setSock, setMbuf, empty]

theorem mbufqPushtail_next (s : Net) (so m : Nat) :
    (fun a => ((s.mbufqPushtail so m).mbuf a).next) =
      if (s.sock so).rxq.head = 0 then Function.update (fun a => (s.mbuf a).next) m 0
      else Function.update (Function.update (fun a => (s.mbuf a).next) m 0) (s.sock so).rxq.tail m := by
  have field : ∀ (mbuf : Nat → Mbuf) (b value : Nat),
      (fun a => (Function.update mbuf b { mbuf b with next := value } a).next) =
        Function.update (fun a => (mbuf a).next) b value := by
    intro mbuf b value
    ext a
    by_cases here : a = b
    · subst here
      simp
    · simp [here]
  unfold mbufqPushtail
  by_cases empty : (s.sock so).rxq.head = 0
  · simp only [setSock, setMbuf, empty, if_true]
    exact field ..
  · simp only [setSock, setMbuf, empty, if_false]
    rw [field, field]

namespace Queued

/-- The queue after `mbufq_init`, whatever its tail is. -/
theorem init (s : Net) (so : Nat) : (s.mbufqInit so).Queued so [] := by
  unfold Queued mbufqInit
  rw [setSock_self]
  exact .empty

/-- `mbufq_pushtail` of a packet buffer that does not wait. The old tail is read only where it means
something. -/
theorem push (queued : s.Queued so waiting) (real : m ≠ 0) (fresh : m ∉ waiting) :
    (s.mbufqPushtail so m).Queued so (waiting ++ [m]) := by
  unfold Queued at queued ⊢
  rw [mbufqPushtail_sock, Function.update_self, mbufqPushtail_next]
  by_cases empty : (s.sock so).rxq.head = 0
  · rw [if_pos empty, if_pos empty, queued.head_eq_null.mp empty]
    exact .start real
  · rw [if_neg empty, if_neg empty]
    exact queued.push (fun none => empty (queued.head_eq_null.mpr none)) real fresh

/-- `mbufq_empty`. -/
theorem empty_iff (queued : s.Queued so waiting) : s.mbufqEmpty so = true ↔ waiting = [] := by
  unfold mbufqEmpty
  rw [beq_iff_eq]
  exact queued.head_eq_null

/-- `mbufq_pophead` returns the packet buffer that waits longest, and a null pointer if none does. -/
theorem mbufqPophead_fst (queued : s.Queued so waiting) :
    (s.mbufqPophead so).map Prod.fst = waiting.head? := by
  unfold mbufqPophead
  cases waiting with
  | nil => rw [if_pos (queued.head_eq_null.mpr rfl)]; rfl
  | cons first rest =>
      have full : (s.sock so).rxq.head ≠ 0 := fun empty =>
        List.cons_ne_nil first rest (queued.head_eq_null.mp empty)
      rw [if_neg full]
      exact congrArg some queued.pop.1

/-- The others wait on. -/
theorem pop (queued : s.Queued so waiting) (got : s.mbufqPophead so = some (m, s')) :
    ∃ rest, waiting = m :: rest ∧ s'.Queued so rest ∧ s'.mbuf = s.mbuf := by
  have first := queued.mbufqPophead_fst
  rw [got] at first
  obtain ⟨rest, rfl⟩ := List.head?_eq_some_iff.mp first.symm
  refine ⟨rest, rfl, ?_⟩
  unfold mbufqPophead at got
  by_cases empty : (s.sock so).rxq.head = 0
  · rw [if_pos empty] at got
    cases got
  · rw [if_neg empty] at got
    cases got
    refine ⟨?_, rfl⟩
    unfold Queued
    rw [setSock_self]
    exact queued.pop.2

/-- Only the queue and the links of what waits in it matter. -/
theorem congr (queued : s.Queued so waiting) (rxq : (s'.sock so).rxq = (s.sock so).rxq)
    (next : ∀ m ∈ waiting, (s'.mbuf m).next = (s.mbuf m).next) : s'.Queued so waiting := by
  unfold Queued at queued ⊢
  rw [rxq]
  exact IsQueue.congr queued next

end Queued

end Net

/-- The network, and what was pushed to and popped from one queue, the oldest first. -/
structure QueueSys where
  net : Net
  pushed : List Nat
  popped : List Nat

/-- What was pushed and is not popped yet. -/
def QueueSys.waiting (s : QueueSys) : List Nat := s.pushed.drop s.popped.length

inductive QueueAct where
  | pushtail (m : Nat)
  | pophead
  | others

/-- A packet buffer is pushed by the driver that received it and owns it. What the kernel does in between leaves
the queue and the packet buffers that wait in it alone; a popped one is freed and may come again. -/
inductive QueueStep (so : Nat) : QueueSys → QueueAct → QueueSys → Prop where
  | pushtail {s m} (real : m ≠ 0) (owned : m ∉ s.waiting) :
      QueueStep so s (.pushtail m) { s with net := s.net.mbufqPushtail so m, pushed := s.pushed ++ [m] }
  | pophead {s m net} (got : s.net.mbufqPophead so = some (m, net)) :
      QueueStep so s .pophead { s with net := net, popped := s.popped ++ [m] }
  | empty {s} (got : s.net.mbufqPophead so = none) : QueueStep so s .pophead s
  | others {s net} (rxq : (net.sock so).rxq = (s.net.sock so).rxq)
      (next : ∀ m ∈ s.waiting, (net.mbuf m).next = (s.net.mbuf m).next) :
      QueueStep so s .others { s with net := net }

/-- The runs from a call of `mbufq_init`. -/
def queueSystem (so : Nat) : TransitionSystem QueueSys QueueAct where
  Initial s := ∃ net : Net, s = ⟨net.mbufqInit so, [], []⟩
  Step := QueueStep so

/-- The queue holds what was pushed and is not popped yet, and what was popped is the rest. -/
structure QueueSys.Fifo (so : Nat) (s : QueueSys) : Prop where
  order : s.pushed = s.popped ++ s.waiting
  queued : s.net.Queued so s.waiting

namespace QueueSys.Fifo

variable {so : Nat} {s s' : QueueSys}

theorem of_waiting {net : Net} {pushed popped waiting : List Nat} (order : pushed = popped ++ waiting)
    (queued : net.Queued so waiting) : Fifo so ⟨net, pushed, popped⟩ := by
  have waits : QueueSys.waiting ⟨net, pushed, popped⟩ = waiting := by
    unfold QueueSys.waiting
    rw [order]
    exact List.drop_left
  exact ⟨by rw [waits, order], by rw [waits]; exact queued⟩

theorem step {act : QueueAct} (fifo : Fifo so s) (transition : QueueStep so s act s') : Fifo so s' := by
  cases transition with
  | pushtail real owned =>
      refine of_waiting ?_ (fifo.queued.push real owned)
      rw [← List.append_assoc, ← fifo.order]
  | pophead got =>
      obtain ⟨rest, waits, queued, -⟩ := fifo.queued.pop got
      refine of_waiting ?_ queued
      rw [fifo.order, waits, List.append_assoc]
      rfl
  | empty got => exact fifo
  | others rxq next => exact of_waiting fifo.order (fifo.queued.congr rxq next)

end QueueSys.Fifo

theorem fifo_inductive (so : Nat) : (queueSystem so).Inductive (fun _ _ => True) (QueueSys.Fifo so) where
  initial := by
    rintro s ⟨net, rfl⟩
    exact .of_waiting rfl (.init net so)
  preserved fifo _ transition := fifo.step transition

/-- In every run the popped packet buffers are the first of the pushed ones. `mbufq_pophead` returns the next of
them, and nothing only when all were popped, which is when `mbufq_empty` says so. -/
theorem mbufq_fifo {so : Nat} {s : QueueSys} (run : (queueSystem so).Reachable s) :
    s.popped <+: s.pushed ∧ (s.net.mbufqPophead so).map Prod.fst = s.pushed[s.popped.length]? ∧
      (s.net.mbufqEmpty so = true ↔ s.popped = s.pushed) := by
  have fifo := run.invariant (fifo_inductive so)
  refine ⟨⟨s.waiting, fifo.order.symm⟩, ?_, ?_⟩
  · rw [fifo.queued.mbufqPophead_fst, QueueSys.waiting, List.head?_drop]
  · rw [fifo.queued.empty_iff]
    constructor
    · intro none
      rw [fifo.order, none, List.append_nil]
    · intro all
      unfold QueueSys.waiting
      rw [all]
      exact List.drop_length

/-- Two packets, of which one is read before the third comes. -/
theorem mbufq_fifo_three : ∃ net : Net, [0x1000] <+: [0x1000, 0x2000, 0x3000] ∧
    (net.mbufqPophead 0).map Prod.fst = [0x1000, 0x2000, 0x3000][1]? ∧
      (net.mbufqEmpty 0 = true ↔ [0x1000] = [0x1000, 0x2000, 0x3000]) := by
  let net : Net := ⟨[], fun _ => .filled 5, fun _ => .filled 5, 0, 0, 0⟩
  have start : (queueSystem 0).Reachable ⟨net.mbufqInit 0, [], []⟩ := .initial ⟨net, rfl⟩
  have one := start.step trivial (.pushtail (m := 0x1000) (by decide) (by decide))
  have two := one.step trivial (.pushtail (m := 0x2000) (by decide) (by decide))
  have popped := two.step trivial (.pophead rfl)
  have three := popped.step trivial (.pushtail (m := 0x3000) (by decide) (by decide))
  exact ⟨_, mbufq_fifo three⟩

end Riscv2os.Xv7
