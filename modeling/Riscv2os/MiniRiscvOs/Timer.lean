import Riscv2os.Std.TransitionSystem

/-!
# Timer deadlines of mini-riscv-os

`timer.c` of `10-SystemCall` with the two registers of the CLINT that it uses, on a machine of 32 bits.
The device has a 64-bit `mtimecmp` for each hart, 8 bytes apart; `CLINT_MTIMECMP` counts 4 bytes for a
hart, and one word is stored. So hart 0 sets the low half of its deadline, and another hart sets half of
the deadline of hart `hartid / 2`.
-/

namespace Riscv2os.MiniRiscvOs

open Riscv2os.Std

/-! ## The CLINT -/

def CLINT : Nat := 0x2000000

def CLINT_MTIMECMP (hartid : Nat) : Nat := CLINT + 0x4000 + 4 * hartid

def CLINT_MTIME : Nat := CLINT + 0xBFF8

/-- The number of harts for which the device has a register. -/
def CLINT_HARTS : Nat := 4095

/-- The low word of a register, and the high word. -/
def word (v : BitVec 64) (half : Nat) : BitVec 32 := v.extractLsb' (32 * half) 32

/-- A register after the store of one word. -/
def setWord (v : BitVec 64) (half : Nat) (w : BitVec 32) : BitVec 64 :=
  if half = 0 then word v 1 ++ w else w ++ word v 0

structure Clint where
  mtime : BitVec 64
  /-- The `mtimecmp` of each hart. -/
  mtimecmp : Nat → BitVec 64

namespace Clint

/-- Load a word. -/
def load (c : Clint) (address : Nat) : BitVec 32 :=
  if CLINT + 0x4000 ≤ address ∧ address < CLINT_MTIME then
    let index := (address - (CLINT + 0x4000)) / 4
    word (c.mtimecmp (index / 2)) (index % 2)
  else word c.mtime ((address - CLINT_MTIME) / 4)

/-- Store a word. -/
def store (c : Clint) (address : Nat) (w : BitVec 32) : Clint :=
  if CLINT + 0x4000 ≤ address ∧ address < CLINT_MTIME then
    let index := (address - (CLINT + 0x4000)) / 4
    { c with mtimecmp :=
        Function.update c.mtimecmp (index / 2) (setWord (c.mtimecmp (index / 2)) (index % 2) w) }
  else { c with mtime := setWord c.mtime ((address - CLINT_MTIME) / 4) w }

end Clint

/-! ## The code -/

/-- `interval`. -/
def INTERVAL : BitVec 32 := 20000000

/-- `MIE_MTIE`. -/
def MIE_MTIE : BitVec 32 := 1 <<< 7

/-- `timer_scratch` and `timer_count`, the device, and the two registers of each hart. -/
structure TimerState where
  clint : Clint
  timerScratch : Nat → Nat → BitVec 32
  timerCount : BitVec 32
  mscratch : Nat → BitVec 32
  mie : Nat → BitVec 32

namespace TimerState

/-- `*(reg_t *)CLINT_MTIMECMP(id) = *(reg_t *)CLINT_MTIME + interval`. -/
def setDeadline (s : TimerState) (id : Nat) : TimerState :=
  { s with clint := s.clint.store (CLINT_MTIMECMP id) (s.clint.load CLINT_MTIME + INTERVAL) }

/-- `timer_init`, with the address of `timer_scratch`. -/
def timerInit (scratch : BitVec 32) (s : TimerState) (id : Nat) : TimerState :=
  let s := s.setDeadline id
  { s with
    timerScratch := Function.update s.timerScratch id
      (Function.update (Function.update (s.timerScratch id) 3 (BitVec.ofNat 32 (CLINT_MTIMECMP id))) 4 INTERVAL)
    mscratch := Function.update s.mscratch id (scratch + BitVec.ofNat 32 (20 * id))
    mie := Function.update s.mie id (s.mie id ||| MIE_MTIE) }

/-- `timer_handler`. -/
def timerHandler (s : TimerState) (id : Nat) : TimerState :=
  { s with timerCount := s.timerCount + 1 }.setDeadline id

end TimerState

/-- The two functions that set a deadline. -/
inductive TimerCall where
  | init (scratch : BitVec 32)
  | handler

def TimerCall.run : TimerCall → TimerState → Nat → TimerState
  | .init scratch, s, id => s.timerInit scratch id
  | .handler, s, id => s.timerHandler id

/-- A state, and for each hart that set a deadline the one that it asked for last. -/
structure TimerRun where
  state : TimerState
  deadline : Nat → Option (BitVec 64)

namespace TimerRun

/-- The deadline that a call asks for. -/
def next (r : TimerRun) : BitVec 64 := r.state.clint.mtime + INTERVAL.setWidth 64

/-- A hart calls one of the functions. -/
def call (r : TimerRun) (c : TimerCall) (id : Nat) : TimerRun where
  state := c.run r.state id
  deadline := Function.update r.deadline id (some r.next)

/-- The register of a hart holds the deadline that it asked for. -/
def Exact (r : TimerRun) : Prop :=
  ∀ id d, r.deadline id = some d → r.state.clint.mtimecmp id = d

/-- The half that the code leaves out is right: the high one for hart 0, both for another hart. -/
def Sets (r : TimerRun) (id : Nat) : Prop :=
  if id = 0 then word (r.state.clint.mtimecmp 0) 1 = word r.next 1 else r.state.clint.mtimecmp id = r.next

instance (r : TimerRun) (id : Nat) : Decidable (r.Sets id) :=
  inferInstanceAs (Decidable
    (if id = 0 then word (r.state.clint.mtimecmp 0) 1 = word r.next 1 else r.state.clint.mtimecmp id = r.next))

/-- The half that a hart other than 0 stores into holds no deadline, or the same word. -/
def Spares (r : TimerRun) (id : Nat) : Prop :=
  id = 0 ∨ r.deadline (id / 2) = none ∨
    word (r.state.clint.mtimecmp (id / 2)) (id % 2) = word r.next 0

end TimerRun

/-- A step of the system: the time goes on, or a hart calls one of the functions. -/
inductive TimerEvent where
  | tick
  | call (c : TimerCall) (id : Nat)

inductive TimerRun.Step : TimerRun → TimerEvent → TimerRun → Prop where
  | tick {r : TimerRun} :
      Step r .tick { r with state.clint.mtime := r.state.clint.mtime + 1 }
  | call {r : TimerRun} {c : TimerCall} {id : Nat} (exists_ : id < CLINT_HARTS) :
      Step r (.call c id) (r.call c id)

/-- The condition on a step, in the state before it. -/
def TimerRun.Proper (r : TimerRun) : TimerEvent → Prop
  | .tick => True
  | .call _ id => r.Sets id ∧ r.Spares id

/-- Any state of the device and the memory, where no deadline is set yet. -/
def timerSystem : TransitionSystem TimerRun TimerEvent where
  Initial r := ∀ id, r.deadline id = none
  Step := TimerRun.Step

/-! ## What a call stores -/

section Words

variable {v v' : BitVec 64} {w : BitVec 32}

theorem word_append (v : BitVec 64) : word v 1 ++ word v 0 = v :=
  @BitVec.extractLsb'_append_extractLsb' 32 32 v

theorem words_eq : v = v' ↔ word v 0 = word v' 0 ∧ word v 1 = word v' 1 := by
  constructor
  · rintro rfl
    exact ⟨rfl, rfl⟩
  · rintro ⟨low, high⟩
    rw [← word_append v, ← word_append v', low, high]

@[simp] theorem setWord_low : word (setWord v 0 w) 0 = w := BitVec.extractLsb'_append_eq_right

@[simp] theorem setWord_high : word (setWord v 0 w) 1 = word v 1 := BitVec.extractLsb'_append_eq_left

/-- A word can be stored again. -/
theorem setWord_eq_self {half : Nat} (two : half < 2) : setWord v half w = v ↔ word v half = w := by
  obtain rfl | rfl : half = 0 ∨ half = 1 := by omega
  · rw [words_eq, setWord_low, setWord_high]
    exact ⟨fun both => both.1.symm, fun same => ⟨same.symm, rfl⟩⟩
  · have low : word (setWord v 1 w) 0 = word v 0 := BitVec.extractLsb'_append_eq_right
    have high : word (setWord v 1 w) 1 = w := BitVec.extractLsb'_append_eq_left
    rw [words_eq, low, high]
    exact ⟨fun both => both.2.symm, fun same => ⟨rfl, same.symm⟩⟩

end Words

namespace TimerRun

variable {r : TimerRun} {c : TimerCall} {id : Nat}

/-- The low word of the deadline is the one that is stored. -/
theorem next_low : word r.next 0 = word r.state.clint.mtime 0 + INTERVAL := by
  have low (v : BitVec 64) : word v 0 = v.setWidth 32 := by
    rw [BitVec.setWidth_eq_extractLsb' (by decide : 32 ≤ 64), word]
  rw [low, low, next, BitVec.setWidth_add _ _ (by decide)]
  rfl

theorem load_mtime (clint : Clint) : clint.load CLINT_MTIME = word clint.mtime 0 := by
  have outside : ¬ (CLINT + 0x4000 ≤ CLINT_MTIME ∧ CLINT_MTIME < CLINT_MTIME) :=
    fun inside => lt_irrefl _ inside.2
  unfold Clint.load
  rw [if_neg outside, Nat.sub_self]

/-- A call stores the low word of the deadline, at half of the hart's number. -/
theorem call_clint (exists_ : id < CLINT_HARTS) : (r.call c id).state.clint =
    { r.state.clint with
      mtimecmp := Function.update r.state.clint.mtimecmp (id / 2)
        (setWord (r.state.clint.mtimecmp (id / 2)) (id % 2) (word r.next 0)) } := by
  have stored : (r.call c id).state.clint = (r.state.setDeadline id).clint := by
    cases c
    · rfl
    · rfl
  have index : (CLINT_MTIMECMP id - (CLINT + 0x4000)) / 4 = id := by
    rw [CLINT_MTIMECMP]
    omega
  have inside : CLINT + 0x4000 ≤ CLINT_MTIMECMP id ∧ CLINT_MTIMECMP id < CLINT_MTIME := by
    have below : id < 4095 := exists_
    refine ⟨Nat.le_add_right _ _, ?_⟩
    unfold CLINT_MTIMECMP CLINT_MTIME
    omega
  rw [stored, TimerState.setDeadline, load_mtime, ← next_low]
  unfold Clint.store
  rw [if_pos inside]
  simp only [index]

/-- What the register of the hart holds behind its call. -/
theorem sets_iff (exists_ : id < CLINT_HARTS) :
    (r.call c id).state.clint.mtimecmp id = r.next ↔ r.Sets id := by
  rw [call_clint exists_, Sets]
  by_cases boot : id = 0
  · subst boot
    rw [if_pos rfl]
    dsimp only
    rw [Nat.zero_div, Nat.zero_mod, Function.update_self, words_eq, setWord_low, setWord_high]
    exact and_iff_right rfl
  · rw [if_neg boot]
    dsimp only
    rw [Function.update_of_ne (by omega)]

/-- What the registers of all harts hold behind a call. -/
theorem exact_iff (exact : r.Exact) (exists_ : id < CLINT_HARTS) :
    (r.call c id).Exact ↔ r.Sets id ∧ r.Spares id := by
  have own : (r.call c id).deadline id = some r.next := Function.update_self id _ r.deadline
  have others {i : Nat} (other : i ≠ id) : (r.call c id).deadline i = r.deadline i :=
    Function.update_of_ne other _ _
  constructor
  · intro after
    refine ⟨(sets_iff exists_).mp (after id _ own), ?_⟩
    by_cases boot : id = 0
    · exact .inl boot
    have half : id / 2 ≠ id := by omega
    cases set : r.deadline (id / 2) with
    | none => exact .inr (.inl set)
    | some d =>
        have kept := after (id / 2) d ((others half).trans set)
        rw [call_clint exists_, ← exact (id / 2) d set] at kept
        dsimp only at kept
        rw [Function.update_self, setWord_eq_self (Nat.mod_lt _ (by decide))] at kept
        exact .inr (.inr kept)
  · rintro ⟨sets, spares⟩ i d set
    by_cases same : i = id
    · subst same
      rw [own, Option.some.injEq] at set
      rw [← set]
      exact (sets_iff exists_).mpr sets
    rw [others same] at set
    rw [call_clint exists_, ← exact i d set]
    dsimp only
    by_cases hit : i = id / 2
    · subst hit
      obtain rfl | unset | again := spares
      · exact absurd rfl same
      · rw [unset] at set
        cases set
      · rw [Function.update_self, setWord_eq_self (Nat.mod_lt _ (by decide))]
        exact again
    · rw [Function.update_of_ne hit]

/-- A run whose steps all meet the condition keeps every deadline exact. -/
theorem exact_inductive : timerSystem.Inductive Proper Exact where
  initial none id d set := by
    rw [none id] at set
    cases set
  preserved := by
    intro r e r' exact proper step
    cases step with
    | tick => exact exact
    | call exists_ => exact (exact_iff exact exists_).mpr proper

/-- In a run whose calls all met the condition every deadline is exact, and the next call sets its own
exactly, and spares the others, if and only if it meets the condition too. -/
theorem deadline_iff (run : timerSystem.ReachableUnder Proper r) (c : TimerCall) (id : Nat)
    (exists_ : id < CLINT_HARTS) :
    r.Exact ∧ ((r.call c id).state.clint.mtimecmp id = r.next ↔ r.Sets id) ∧
      ((r.call c id).Exact ↔ r.Proper (.call c id)) := by
  have exact : r.Exact := run.invariant exact_inductive
  exact ⟨exact, sets_iff exists_, exact_iff exact exists_⟩

/-- A machine whose `mtimecmp` registers are zero, at a time. -/
def startAt (mtime : BitVec 64) : TimerRun where
  state :=
    { clint := { mtime := mtime, mtimecmp := fun _ => 0 }
      timerScratch := fun _ _ => 0
      timerCount := 0
      mscratch := fun _ => 0
      mie := fun _ => 0 }
  deadline _ := none

/-- Hart 0 sets its first deadline. -/
theorem deadline_first : ((startAt 0).call (.init 0) 0).state.clint.mtimecmp 0 = 20000000 :=
  (deadline_iff (.initial fun _ => rfl) (.init 0) 0 (by decide)).2.1.mpr (by decide)

/-- One tick before the low word wraps, hart 0 sets a deadline that is over. -/
theorem deadline_over : ¬ ∀ r, timerSystem.Reachable r → r.Exact := by
  intro always
  have reached : timerSystem.Reachable ((startAt 0xFFFFFFFF).call .handler 0) :=
    .step (.initial fun _ => rfl) trivial (.call (by decide))
  have exact := always _ reached 0 _ rfl
  revert exact
  decide

end TimerRun

end Riscv2os.MiniRiscvOs
