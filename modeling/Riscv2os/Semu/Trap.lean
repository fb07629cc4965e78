import Riscv2os.Semu.Cpu

/-!
# Traps of the machine emulator

`cpu_take_trap`, `cpu_check_pending_interrupt` and one round of the loop of `main`. Which register
decides about delegation, and what `mret` and `sret` restore of the mode and of the interrupt enables,
also through nested traps.
-/

namespace Riscv2os.Semu

open Riscv2os.Std

/-- `interrupt_t`, without `NONE`. -/
inductive Interrupt where
  | supervisorSoftware
  | machineSoftware
  | supervisorTimer
  | machineTimer
  | supervisorExternal
  | machineExternal
deriving DecidableEq, Repr

/-- The number of an interrupt. -/
def Interrupt.code : Interrupt → Nat
  | supervisorSoftware => 1
  | machineSoftware => 3
  | supervisorTimer => 5
  | machineTimer => 7
  | supervisorExternal => 9
  | machineExternal => 11

/-- Why a trap is taken. -/
inductive Cause where
  | exception (e : Exception)
  | interrupt (intr : Interrupt)
deriving DecidableEq, Repr

namespace Cause

/-- The number of the exception or the interrupt. -/
def number : Cause → Nat
  | exception e => e.code
  | interrupt intr => intr.code

/-- The local variable `cause`. -/
def word (cause : Cause) : Word :=
  match cause with
  | exception e => BitVec.ofNat 64 e.code
  | interrupt intr => ((1 : Word) <<< 63) ||| BitVec.ofNat 64 intr.code

/-- `is_interrupt`. -/
def isInterrupt : Cause → Bool
  | exception _ => false
  | interrupt _ => true

end Cause

namespace Cpu

/-- The address of the handler of a trap. -/
def vector (cpu : Cpu) (tvec : BitVec 12) (cause : Cause) : Word :=
  let vec : Word := if cause.isInterrupt ∧ cpu.csrBit tvec 0 then 4 * cause.word else 0
  (cpu.loadCsr tvec &&& ~~~1) + vec

/-- The trap goes to supervisor mode. -/
def delegates (cpu : Cpu) (cause : Cause) : Bool :=
  cpu.mode != .machine && cpu.csrBit MEDELEG ((cause.word.setWidth 32).toNat)

/-- `cpu_take_trap`. -/
def takeTrap (cpu : Cpu) (cause : Cause) : Cpu :=
  let exception_pc := cpu.pc - 4
  let prev_mode := cpu.mode
  if cpu.delegates cause then
    let cpu := cpu.goTo .supervisor (cpu.vector STVEC cause)
    let cpu := cpu.storeCsr SEPC (exception_pc &&& ~~~1)
    let cpu := cpu.storeCsr SCAUSE cause.word
    let cpu := cpu.storeCsr STVAL 0
    let cpu := cpu.copyBit SSTATUS 1 5
    let cpu := cpu.clearBits SSTATUS ((1 : Word) <<< 1)
    if prev_mode = .user then cpu.clearBits SSTATUS ((1 : Word) <<< 8) else cpu.setBits SSTATUS ((1 : Word) <<< 8)
  else
    let cpu := cpu.goTo .machine (cpu.vector MTVEC cause)
    let cpu := cpu.storeCsr MEPC (exception_pc &&& ~~~1)
    let cpu := cpu.storeCsr MCAUSE cause.word
    let cpu := cpu.storeCsr MTVAL 0
    let cpu := cpu.copyBit MSTATUS 3 7
    let cpu := cpu.clearBits MSTATUS ((1 : Word) <<< 3)
    cpu.clearBits MSTATUS ((3 : Word) <<< 11)

/-! ## Control registers -/

variable {cpu : Cpu} {a b : BitVec 12} {n k : Nat} {value : Word}

@[simp] theorem mode_goTo {mode : Mode} {pc : Word} : (cpu.goTo mode pc).mode = mode := rfl

@[simp] theorem pc_goTo {mode : Mode} {pc : Word} : (cpu.goTo mode pc).pc = pc := rfl

@[simp] theorem loadCsr_goTo {mode : Mode} {pc : Word} : (cpu.goTo mode pc).loadCsr a = cpu.loadCsr a :=
  rfl

@[simp] theorem mode_storeCsr : (cpu.storeCsr a value).mode = cpu.mode := by
  unfold storeCsr
  split <;> rfl

@[simp] theorem pc_storeCsr : (cpu.storeCsr a value).pc = cpu.pc := by
  unfold storeCsr
  split <;> rfl

/-- What was stored is loaded, except through `SIE`. -/
theorem loadCsr_storeCsr_self (plain : a ≠ SIE) : (cpu.storeCsr a value).loadCsr a = value := by
  rw [storeCsr, if_neg plain, loadCsr, if_neg plain]
  exact Function.update_self ..

theorem loadCsr_storeCsr_ne (plain : a ≠ SIE) (plain' : b ≠ SIE) (other : b ≠ a) :
    (cpu.storeCsr a value).loadCsr b = cpu.loadCsr b := by
  rw [storeCsr, if_neg plain, loadCsr, if_neg plain', loadCsr, if_neg plain']
  exact Function.update_of_ne other ..

/-- One bit of a word as a mask. -/
theorem getLsbD_shift_one (inside : k < 64) : ((1 : Word) <<< k).getLsbD n = decide (n = k) := by
  have one : (1 : Word) = 1#64 := rfl
  rw [one, BitVec.getLsbD_shiftLeft, BitVec.getLsbD_one]
  by_cases same : n = k
  · subst same
    simp [inside]
  · have apart : ¬ (n < 64 ∧ k ≤ n ∧ n - k = 0) := by omega
    simpa [same] using apart

theorem csrBit_eq : cpu.csrBit a n = (cpu.loadCsr a).getLsbD n := by
  have one : (1 : Word) = (1 : Word) <<< 0 := rfl
  unfold csrBit
  cases bit : (cpu.loadCsr a).getLsbD n with
  | false =>
      refine decide_eq_false (not_not.mpr ?_)
      apply BitVec.eq_of_getLsbD_eq
      intro i _
      rw [one, BitVec.getLsbD_and, BitVec.getLsbD_ushiftRight, getLsbD_shift_one (by omega)]
      by_cases first : i = 0
      · subst first
        simp [bit]
      · simp [first]
  | true =>
      refine decide_eq_true fun zero => ?_
      have first := congrArg (fun w : Word => w.getLsbD 0) zero
      rw [one, BitVec.getLsbD_and, BitVec.getLsbD_ushiftRight, Nat.add_zero, bit,
        getLsbD_shift_one (by omega)] at first
      cases first

section Bits

variable (plain : a ≠ SIE)

@[simp] theorem mode_setBits {mask : Word} : (cpu.setBits a mask).mode = cpu.mode := mode_storeCsr

@[simp] theorem mode_clearBits {mask : Word} : (cpu.clearBits a mask).mode = cpu.mode := mode_storeCsr

@[simp] theorem mode_copyBit : (cpu.copyBit a n k).mode = cpu.mode := by
  unfold copyBit
  split <;> simp

@[simp] theorem pc_setBits {mask : Word} : (cpu.setBits a mask).pc = cpu.pc := pc_storeCsr

@[simp] theorem pc_clearBits {mask : Word} : (cpu.clearBits a mask).pc = cpu.pc := pc_storeCsr

@[simp] theorem pc_copyBit : (cpu.copyBit a n k).pc = cpu.pc := by
  unfold copyBit
  split <;> simp

include plain

theorem loadCsr_setBits_ne {mask : Word} (plain' : b ≠ SIE) (other : b ≠ a) :
    (cpu.setBits a mask).loadCsr b = cpu.loadCsr b := loadCsr_storeCsr_ne plain plain' other

theorem loadCsr_clearBits_ne {mask : Word} (plain' : b ≠ SIE) (other : b ≠ a) :
    (cpu.clearBits a mask).loadCsr b = cpu.loadCsr b := loadCsr_storeCsr_ne plain plain' other

theorem loadCsr_copyBit_ne (plain' : b ≠ SIE) (other : b ≠ a) :
    (cpu.copyBit a n k).loadCsr b = cpu.loadCsr b := by
  unfold copyBit
  split
  · exact loadCsr_setBits_ne plain plain' other
  · exact loadCsr_clearBits_ne plain plain' other

theorem csrBit_setBits {mask : Word} :
    (cpu.setBits a mask).csrBit a n = (cpu.csrBit a n || mask.getLsbD n) := by
  rw [csrBit_eq, csrBit_eq, setBits, loadCsr_storeCsr_self plain, BitVec.getLsbD_or]

theorem csrBit_clearBits {mask : Word} (small : n < 64) :
    (cpu.clearBits a mask).csrBit a n = (cpu.csrBit a n && !mask.getLsbD n) := by
  rw [csrBit_eq, csrBit_eq, clearBits, loadCsr_storeCsr_self plain, BitVec.getLsbD_and,
    BitVec.getLsbD_not, decide_eq_true small, Bool.true_and]

theorem csrBit_copyBit {i : Nat} (small : i < 64) (inside : k < 64) :
    (cpu.copyBit a n k).csrBit a i = if i = k then cpu.csrBit a n else cpu.csrBit a i := by
  unfold copyBit
  split
  next set =>
    rw [csrBit_setBits plain, getLsbD_shift_one inside, set]
    by_cases same : i = k <;> simp [same]
  next clear =>
    rw [csrBit_clearBits plain small, getLsbD_shift_one inside]
    by_cases same : i = k
    · simpa [same] using clear
    · simp [same]

end Bits

theorem csrBit_congr {cpu' : Cpu} (same : cpu'.loadCsr a = cpu.loadCsr a) :
    cpu'.csrBit a n = cpu.csrBit a n := by
  rw [csrBit, csrBit, same]

/-! ## Entry and return -/

/-- The interrupt enable of supervisor mode. -/
def sie (cpu : Cpu) : Bool := cpu.csrBit SSTATUS 1

/-- The interrupt enable of machine mode. -/
def mie (cpu : Cpu) : Bool := cpu.csrBit MSTATUS 3

/-- The exception program counter of a mode. -/
def epc (cpu : Cpu) : Mode → Word
  | .supervisor => cpu.loadCsr SEPC
  | _ => cpu.loadCsr MEPC

variable {cause : Cause}

theorem csrBit_goTo {mode : Mode} {pc : Word} : (cpu.goTo mode pc).csrBit a n = cpu.csrBit a n := rfl

theorem csrBit_storeCsr_ne (plain : a ≠ SIE) (plain' : b ≠ SIE) (other : b ≠ a) :
    (cpu.storeCsr a value).csrBit b n = cpu.csrBit b n :=
  csrBit_congr (loadCsr_storeCsr_ne plain plain' other)

/-- What a delegated trap leaves of the mode, the program counter, and the registers of `sret` and
`mret`. -/
theorem takeTrap_supervisor (delegated : cpu.delegates cause = true) :
    (cpu.takeTrap cause).mode = .supervisor ∧
      (cpu.takeTrap cause).pc = cpu.vector STVEC cause ∧
      (cpu.takeTrap cause).loadCsr SEPC = (cpu.pc - 4) &&& ~~~1 ∧
      (cpu.takeTrap cause).csrBit SSTATUS 5 = cpu.sie ∧
      (cpu.takeTrap cause).csrBit SSTATUS 8 = (cpu.mode != .user) ∧
      (cpu.takeTrap cause).loadCsr MSTATUS = cpu.loadCsr MSTATUS := by
  unfold takeTrap
  rw [if_pos delegated]
  simp only []
  by_cases user : cpu.mode = .user
  · rw [if_pos user]
    refine ⟨by simp, by simp, ?_, ?_, ?_, ?_⟩
    · simp (disch := decide) only [loadCsr_clearBits_ne, loadCsr_copyBit_ne, loadCsr_storeCsr_ne,
        loadCsr_storeCsr_self]
    · simp (disch := decide) only [csrBit_clearBits, csrBit_copyBit, getLsbD_shift_one,
        csrBit_storeCsr_ne, csrBit_goTo, sie]
      simp
    · simp (disch := decide) only [csrBit_clearBits, getLsbD_shift_one]
      simp [user]
    · simp (disch := decide) only [loadCsr_clearBits_ne, loadCsr_copyBit_ne, loadCsr_storeCsr_ne,
        loadCsr_goTo]
  · rw [if_neg user]
    refine ⟨by simp, by simp, ?_, ?_, ?_, ?_⟩
    · simp (disch := decide) only [loadCsr_setBits_ne, loadCsr_clearBits_ne, loadCsr_copyBit_ne,
        loadCsr_storeCsr_ne, loadCsr_storeCsr_self]
    · simp (disch := decide) only [csrBit_setBits, csrBit_clearBits, csrBit_copyBit, getLsbD_shift_one,
        csrBit_storeCsr_ne, csrBit_goTo, sie]
      simp
    · simp (disch := decide) only [csrBit_setBits, getLsbD_shift_one]
      simp [user]
    · simp (disch := decide) only [loadCsr_setBits_ne, loadCsr_clearBits_ne, loadCsr_copyBit_ne,
        loadCsr_storeCsr_ne, loadCsr_goTo]

/-- What a trap to machine mode leaves of the same. The field of the previous mode is cleared, whatever
the mode was. -/
theorem takeTrap_machine (delegated : cpu.delegates cause = false) :
    (cpu.takeTrap cause).mode = .machine ∧
      (cpu.takeTrap cause).pc = cpu.vector MTVEC cause ∧
      (cpu.takeTrap cause).loadCsr MEPC = (cpu.pc - 4) &&& ~~~1 ∧
      (cpu.takeTrap cause).csrBit MSTATUS 7 = cpu.mie ∧
      (cpu.takeTrap cause).mpp = .user ∧
      (cpu.takeTrap cause).loadCsr SSTATUS = cpu.loadCsr SSTATUS ∧
      (cpu.takeTrap cause).loadCsr SEPC = cpu.loadCsr SEPC := by
  unfold takeTrap
  rw [if_neg (by simp [delegated])]
  refine ⟨by simp, by simp, ?_, ?_, ?_, ?_, ?_⟩
  · simp (disch := decide) only [loadCsr_clearBits_ne, loadCsr_copyBit_ne, loadCsr_storeCsr_ne,
      loadCsr_storeCsr_self]
  · simp (disch := decide) only [csrBit_clearBits, csrBit_copyBit, getLsbD_shift_one,
      csrBit_storeCsr_ne, csrBit_goTo, mie]
    simp
  · unfold mpp
    have zero : ∀ status : Word, (status &&& ~~~((3 : Word) <<< 11)) >>> 11 &&& 3 = 0 := by
      intro status
      have constant : (~~~((3 : Word) <<< 11)) >>> 11 &&& 3 = 0 := by decide
      rw [BitVec.ushiftRight_and_distrib, BitVec.and_assoc, constant]
      exact BitVec.and_zero
    simp (disch := decide) only [clearBits, loadCsr_storeCsr_self]
    rw [zero]
    rfl
  · simp (disch := decide) only [loadCsr_clearBits_ne, loadCsr_copyBit_ne, loadCsr_storeCsr_ne,
      loadCsr_goTo]
  · simp (disch := decide) only [loadCsr_clearBits_ne, loadCsr_copyBit_ne, loadCsr_storeCsr_ne,
      loadCsr_goTo]

/-- What `sret` does. -/
theorem sret_spec : cpu.sret.mode = (if cpu.csrBit SSTATUS 8 then .supervisor else .user) ∧
    cpu.sret.pc = cpu.loadCsr SEPC ∧ cpu.sret.sie = cpu.csrBit SSTATUS 5 ∧ cpu.sret.mie = cpu.mie := by
  unfold sret
  refine ⟨by simp, by simp, ?_, ?_⟩
  · simp (disch := decide) only [sie, csrBit_clearBits, csrBit_setBits, csrBit_copyBit,
      getLsbD_shift_one, csrBit_goTo]
    simp
  · refine csrBit_congr ?_
    simp (disch := decide) only [loadCsr_clearBits_ne, loadCsr_setBits_ne, loadCsr_copyBit_ne,
      loadCsr_goTo]

/-- What `mret` does. -/
theorem mret_spec : cpu.mret.mode = cpu.mpp ∧ cpu.mret.pc = cpu.loadCsr MEPC ∧
    cpu.mret.mie = cpu.csrBit MSTATUS 7 ∧ cpu.mret.sie = cpu.sie := by
  unfold mret
  refine ⟨by simp, by simp, ?_, ?_⟩
  · simp (disch := decide) only [mie, csrBit_clearBits, csrBit_setBits, csrBit_copyBit,
      getLsbD_shift_one, csrBit_goTo]
    simp
  · refine csrBit_congr ?_
    simp (disch := decide) only [loadCsr_clearBits_ne, loadCsr_setBits_ne, loadCsr_copyBit_ne,
      loadCsr_goTo]

/-- The instructions `sret` and `mret`. -/
def returnInst : Mode → Word
  | .supervisor => 0x10200073
  | _ => 0x30200073

/-- The instruction that returns from a handler is executed. -/
def Returns (handler : Mode) (cpu after : Cpu) : Prop :=
  (execute (returnInst handler)).run cpu = .ok (.ok (), after)

theorem returns_supervisor {after : Cpu} (returns : Returns .supervisor cpu after) :
    after = (cpu.setReg 0 0).sret := by
  have ran : (execute (returnInst .supervisor)).run cpu = .ok (.ok (), (cpu.setReg 0 0).sret) := rfl
  rw [Returns, ran] at returns
  cases returns
  rfl

theorem returns_machine {after : Cpu} (returns : Returns .machine cpu after) :
    after = (cpu.setReg 0 0).mret := by
  have ran : (execute (returnInst .machine)).run cpu = .ok (.ok (), (cpu.setReg 0 0).mret) := rfl
  rw [Returns, ran] at returns
  cases returns
  rfl

/-! ## Traps with their handlers -/

/-- The registers that a handler saves before it may be interrupted, and puts back. -/
def SameTrapCsrs (cpu cpu' : Cpu) : Prop :=
  ∀ addr ∈ [SSTATUS, MSTATUS, SEPC, MEPC], cpu'.loadCsr addr = cpu.loadCsr addr

/-- From the entry of a handler to a later state of it. Its own instructions do what they like in its
mode. A trap that is nested in it, one that is `allowed`, has a handler of its own, which puts the
registers back and returns. -/
inductive Handler (allowed : Cpu → Cause → Prop) : Cpu → Cpu → Prop where
  | enter {entry} : Handler allowed entry entry
  | work {entry cpu cpu'} (prior : Handler allowed entry cpu) (mode : cpu'.mode = cpu.mode) :
      Handler allowed entry cpu'
  | nested {entry cpu cause leave after} (prior : Handler allowed entry cpu) (taken : allowed cpu cause)
      (handled : Handler allowed (cpu.takeTrap cause) leave)
      (saved : SameTrapCsrs (cpu.takeTrap cause) leave)
      (returns : Returns (cpu.takeTrap cause).mode leave after) : Handler allowed entry after

/-- The state after the return compared with the one before the trap. -/
structure Restores (cpu after : Cpu) : Prop where
  mode : after.mode = cpu.mode
  sie : after.sie = cpu.sie
  mie : after.mie = cpu.mie
  pc : after.pc = (cpu.pc - 4) &&& ~~~1

/-- The register that decides about delegation. -/
def delegation : Cause → BitVec 12
  | .exception _ => MEDELEG
  | .interrupt _ => MIDELEG

/-- A trap goes to the right mode, and its return restores what was in force before, as well as its
handler is left in the mode that it was entered in. -/
structure Inverse (allowed : Cpu → Cause → Prop) (cpu : Cpu) (cause : Cause) : Prop where
  delegated : (cpu.takeTrap cause).mode =
    if cpu.mode ≠ .machine ∧ cpu.csrBit (delegation cause) cause.number = true then .supervisor
    else .machine
  handled : ∀ leave, Handler allowed (cpu.takeTrap cause) leave →
    leave.mode = (cpu.takeTrap cause).mode
  restores : ∀ leave after, Handler allowed (cpu.takeTrap cause) leave →
    SameTrapCsrs (cpu.takeTrap cause) leave → Returns (cpu.takeTrap cause).mode leave after →
      Restores cpu after

/-- The trap is taken in user mode, or in supervisor mode and delegated by `MEDELEG`; and for an
interrupt `MIDELEG` says the same as `MEDELEG` about the bit of its number. -/
def Agrees (cpu : Cpu) (cause : Cause) : Prop :=
  (cpu.mode = .user ∨ (cpu.mode = .supervisor ∧ cpu.csrBit MEDELEG cause.number = true)) ∧
    cpu.csrBit MEDELEG cause.number = cpu.csrBit (delegation cause) cause.number

/-- The 32-bit number by which `MEDELEG` is shifted. -/
theorem shift_eq (cause : Cause) : (cause.word.setWidth 32).toNat = cause.number := by
  cases cause with
  | exception e => cases e <;> rfl
  | interrupt intr => cases intr <;> rfl

theorem delegates_eq : cpu.delegates cause = (cpu.mode != .machine && cpu.csrBit MEDELEG cause.number) := by
  rw [delegates, shift_eq]

theorem takeTrap_mode : (cpu.takeTrap cause).mode =
    if cpu.delegates cause = true then .supervisor else .machine := by
  cases delegated : cpu.delegates cause with
  | true => exact (takeTrap_supervisor delegated).1
  | false => exact (takeTrap_machine delegated).1

/-- A return from supervisor mode restores everything. -/
theorem restores_supervisor {leave after : Cpu} (delegated : cpu.delegates cause = true)
    (saved : SameTrapCsrs (cpu.takeTrap cause) leave)
    (returns : Returns (cpu.takeTrap cause).mode leave after) : Restores cpu after := by
  obtain ⟨mode, _, sepc, spie, spp, mstatus⟩ := takeTrap_supervisor delegated
  rw [mode] at returns
  obtain rfl := returns_supervisor returns
  obtain ⟨mode', pc', sie', mie'⟩ := @sret_spec (leave.setReg 0 0)
  have notMachine : cpu.mode ≠ .machine := by
    intro machine
    rw [delegates, machine] at delegated
    cases delegated
  have sstatus : ∀ n, (leave.setReg 0 0).csrBit SSTATUS n = (cpu.takeTrap cause).csrBit SSTATUS n :=
    fun n => csrBit_congr (saved SSTATUS (by simp))
  refine ⟨?_, ?_, ?_, ?_⟩
  · rw [mode', sstatus, spp]
    cases before : cpu.mode with
    | user => rfl
    | supervisor => rfl
    | machine => exact absurd before notMachine
  · rw [sie', sstatus, spie]
  · rw [mie']
    exact csrBit_congr ((saved MSTATUS (by simp)).trans mstatus)
  · rw [pc']
    exact (saved SEPC (by simp)).trans sepc

/-- A return from machine mode restores everything but the mode, which is user mode. -/
theorem restores_machine {leave after : Cpu} (delegated : cpu.delegates cause = false)
    (saved : SameTrapCsrs (cpu.takeTrap cause) leave)
    (returns : Returns (cpu.takeTrap cause).mode leave after) :
    after.mode = .user ∧ (cpu.mode = .user → Restores cpu after) := by
  obtain ⟨mode, _, mepc, mpie, mpp, sstatus, _⟩ := takeTrap_machine delegated
  rw [mode] at returns
  obtain rfl := returns_machine returns
  obtain ⟨mode', pc', mie', sie'⟩ := @mret_spec (leave.setReg 0 0)
  have mstatus := saved MSTATUS (by simp)
  have toUser : (leave.setReg 0 0).mret.mode = .user := by
    rw [mode', ← mpp]
    show Cpu.mpp leave = _
    rw [Cpu.mpp, Cpu.mpp, mstatus]
  refine ⟨toUser, fun user => ⟨toUser.trans user.symm, ?_, ?_, ?_⟩⟩
  · rw [sie']
    exact csrBit_congr ((saved SSTATUS (by simp)).trans sstatus)
  · rw [mie', ← mpie]
    exact csrBit_congr mstatus
  · rw [pc']
    exact (saved MEPC (by simp)).trans mepc

/-- Where the condition holds, the return restores everything. -/
theorem Agrees.restores {leave after : Cpu} (agrees : Agrees cpu cause)
    (saved : SameTrapCsrs (cpu.takeTrap cause) leave)
    (returns : Returns (cpu.takeTrap cause).mode leave after) : Restores cpu after := by
  cases delegated : cpu.delegates cause with
  | true => exact restores_supervisor delegated saved returns
  | false =>
      refine (restores_machine delegated saved returns).2 (agrees.1.resolve_right ?_)
      rintro ⟨supervisor, bit⟩
      rw [delegates_eq, supervisor, bit] at delegated
      cases delegated

/-- A handler goes on in its mode after nested traps. -/
theorem Handler.mode {entry leave : Cpu} (handled : Handler Agrees entry leave) :
    leave.mode = entry.mode := by
  induction handled with
  | enter => rfl
  | work _ same ih => exact same.trans ih
  | nested _ taken _ saved returns ih _ => exact (taken.restores saved returns).mode.trans ih

/-- There is always a return. -/
theorem exists_returns (handler : Mode) (cpu : Cpu) : ∃ after, Returns handler cpu after := by
  cases handler with
  | supervisor => exact ⟨_, rfl⟩
  | user => exact ⟨_, rfl⟩
  | machine => exact ⟨_, rfl⟩

/-- A trap and its return are inverse, with all traps nested in it meeting the condition, if and only if
the trap itself meets it. -/
theorem trap_return_inverse (cpu : Cpu) (cause : Cause) :
    Inverse Agrees cpu cause ↔ Agrees cpu cause := by
  constructor
  · intro inverse
    obtain ⟨after, returns⟩ := exists_returns (cpu.takeTrap cause).mode (cpu.takeTrap cause)
    have restores := inverse.restores _ after .enter (fun _ _ => rfl) returns
    have delegated := inverse.delegated
    rw [takeTrap_mode, delegates_eq] at delegated
    cases target : cpu.delegates cause with
    | true =>
        rw [delegates_eq, Bool.and_eq_true, bne_iff_ne] at target
        obtain ⟨notMachine, bit⟩ := target
        refine ⟨?_, ?_⟩
        · cases before : cpu.mode with
          | user => exact .inl rfl
          | supervisor => exact .inr ⟨rfl, bit⟩
          | machine => exact absurd before notMachine
        · rw [if_pos (by simp [notMachine, bit])] at delegated
          split at delegated
          next right => rw [bit, right.2]
          · cases delegated
    | false =>
        have user : cpu.mode = .user :=
          restores.mode.symm.trans (restores_machine target (fun _ _ => rfl) returns).1
        refine ⟨.inl user, ?_⟩
        rw [user] at delegated
        cases bit : cpu.csrBit MEDELEG cause.number <;>
          cases bit' : cpu.csrBit (delegation cause) cause.number <;> simp_all
  · intro agrees
    refine ⟨?_, fun leave handled => handled.mode, fun leave after _ saved returns =>
      agrees.restores saved returns⟩
    rw [takeTrap_mode, delegates_eq, agrees.2]
    simp

/-- The return from a trap in machine mode goes to user mode, and `MIDELEG` does not delegate
interrupts. -/
theorem trap_return_not_inverse :
    ¬ Inverse (fun _ _ => True) (new [] #[]) (.exception .illegalInstruction) ∧
      ¬ Inverse (fun _ _ => True) (((new [] #[]).goTo .supervisor 0).setCsr MIDELEG 0x200)
        (.interrupt .supervisorExternal) := by
  constructor
  · intro inverse
    have target : (new [] #[]).delegates (.exception .illegalInstruction) = false := rfl
    obtain ⟨after, returns⟩ := exists_returns ((new [] #[]).takeTrap (.exception .illegalInstruction)).mode
      ((new [] #[]).takeTrap (.exception .illegalInstruction))
    have restores := inverse.restores _ after .enter (fun _ _ => rfl) returns
    have user := (restores_machine target (fun _ _ => rfl) returns).1
    rw [restores.mode] at user
    cases user
  · intro inverse
    have delegated := inverse.delegated
    rw [takeTrap_mode] at delegated
    revert delegated
    decide

end Cpu

end Riscv2os.Semu
