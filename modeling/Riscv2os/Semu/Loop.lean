import Riscv2os.Semu.Trap
import Riscv2os.Std.Loops

/-!
# The loop of the machine emulator

`cpu_check_pending_interrupt` and one round of the loop of `main`, with characters arriving at the UART
between any two steps. What the saved program counter of an interrupt or of an instruction page fault
is.
-/

namespace Riscv2os.Semu

open Riscv2os.Std

def MIP_SSIP : Nat := 1
def MIP_MSIP : Nat := 3
def MIP_STIP : Nat := 5
def MIP_MTIP : Nat := 7
def MIP_SEIP : Nat := 9
def MIP_MEIP : Nat := 11

def VIRTIO_IRQ : Word := 1
def UART_IRQ : Word := 10

namespace Cpu

/-- A device requests an interrupt: `SCLAIM` gets its number, and `MIP_SEIP` is set. -/
def request (cpu : Cpu) (irq : Word) : Except Crash Cpu := do
  let (_, bus) ← (Bus.store PLIC_SCLAIM 32 irq).run cpu.bus
  let cpu := { cpu with bus := bus }
  return cpu.setBits MIP ((1 : Word) <<< MIP_SEIP)

/-- The part of `cpu_check_pending_interrupt` that asks the devices. -/
def pollDevices (cpu : Cpu) : Except Crash Cpu :=
  let (uartRequests, uart) := cpu.bus.uart.isInterrupting
  let cpu := { cpu with bus := { cpu.bus with uart := uart } }
  if uartRequests then cpu.request UART_IRQ
  else
    let (diskRequests, virtio) := cpu.bus.virtio.isInterrupting
    let cpu := { cpu with bus := { cpu.bus with virtio := virtio } }
    if diskRequests then do
      let bus ← cpu.bus.diskAccess
      { cpu with bus := bus }.request VIRTIO_IRQ
    else .ok cpu

/-- The interrupts in the order in which they are looked for, with their bits in `MIP`. -/
def priorities : List (Nat × Interrupt) :=
  [(MIP_MEIP, .machineExternal), (MIP_MSIP, .machineSoftware), (MIP_MTIP, .machineTimer),
    (MIP_SEIP, .supervisorExternal), (MIP_SSIP, .supervisorSoftware), (MIP_STIP, .supervisorTimer)]

/-- `cpu_check_pending_interrupt`. -/
def checkPendingInterrupt (cpu : Cpu) : Except Crash (Option Interrupt × Cpu) :=
  if cpu.mode = .machine ∧ cpu.csrBit MSTATUS 3 = false then .ok (none, cpu)
  else if cpu.mode = .supervisor ∧ cpu.csrBit SSTATUS 1 = false then .ok (none, cpu)
  else do
    let cpu ← cpu.pollDevices
    let pending := cpu.loadCsr MIE &&& cpu.loadCsr MIP
    match priorities.find? fun entry => pending.getLsbD entry.1 with
    | some (bit, intr) => return (some intr, cpu.clearBits MIP ((1 : Word) <<< bit))
    | none => return (none, cpu)

/-- How the first part of a round ends: the instruction completed, a trap was taken, or the loop is
left. -/
inductive Outcome where
  | completed (cpu : Cpu)
  | trapped (cpu : Cpu)
  | exits (cpu : Cpu)

/-- The local variable `inst` after the fetch. -/
def instOf : Except Exception Word → Word
  | .ok inst => inst
  | .error _ => 0

/-- A round up to the check for interrupts. -/
def fetchExecute (cpu : Cpu) : Except Crash Outcome := do
  let (fetched, cpu) ← fetch.run cpu
  let cpu :=
    match fetched with
    | .ok _ => cpu
    | .error e => cpu.takeTrap (.exception e)
  if (match fetched with | .ok _ => false | .error e => e.isFatal) then return .exits cpu
  else
    let cpu := { cpu with pc := cpu.pc + 4 }
    let (executed, cpu) ← (execute (instOf fetched)).run cpu
    match executed, fetched with
    | .ok (), .ok _ => return .completed cpu
    | .ok (), .error _ => return .trapped cpu
    | .error e, _ =>
        let cpu := cpu.takeTrap (.exception e)
        if e.isFatal then return .exits cpu else return .trapped cpu

/-- Characters arrive at the UART. -/
def receive (cpu : Cpu) (chars : List UInt8) : Cpu :=
  { cpu with bus := { cpu.bus with uart := chars.foldl Uart.receive cpu.bus.uart } }

/-- A round with characters that arrive before its check. The interrupt that is taken is returned. -/
def round (cpu : Cpu) (chars : List UInt8) : Except Crash (Outcome × Option Interrupt) := do
  match ← fetchExecute cpu with
  | .exits cpu => return (.exits cpu, none)
  | .completed cpu =>
      let (intr, cpu) ← checkPendingInterrupt (cpu.receive chars)
      match intr with
      | none => return (.completed cpu, none)
      | some intr => return (.trapped (cpu.takeTrap (.interrupt intr)), some intr)
  | .trapped cpu =>
      let (intr, cpu) ← checkPendingInterrupt (cpu.receive chars)
      match intr with
      | none => return (.trapped cpu, none)
      | some intr => return (.trapped (cpu.takeTrap (.interrupt intr)), some intr)

/-! ## A failing fetch changes nothing -/

variable {cpu cpu' failed : Cpu} {e : Exception} {cause : Cause}

/-- The walk is a matter of the bus only, and does not change the processor. -/
theorem walk_run (addr : Word) (e : Exception) (level : Nat) (a : Word) (cpu : Cpu) :
    (∃ c, (walk addr e level a).run cpu = .error c) ∨
      ∃ result, ∀ cpu', cpu'.bus = cpu.bus → (walk addr e level a).run cpu' = .ok (result, cpu') := by
  induction level generalizing a with
  | zero => exact .inr ⟨.error e, fun cpu' _ => rfl⟩
  | succ level ih =>
      obtain ⟨c, crashes⟩ | ⟨result, loads⟩ := Bus.load_wide (a + vpn addr level * 8) cpu.bus
      · refine .inl ⟨c, ?_⟩
        unfold walk
        exact Exec.run_bind_crash (onBus_crash.mpr crashes)
      have loaded : ∀ cpu', cpu'.bus = cpu.bus →
          (onBus (Bus.load (a + vpn addr level * 8) 64)).run cpu' = .ok (result, cpu') := by
        intro cpu' same
        refine onBus_ok.mpr ⟨cpu'.bus, ?_, rfl⟩
        rw [same, loads]
      cases result with
      | error e' =>
          refine .inr ⟨.error e', fun cpu' same => ?_⟩
          unfold walk
          exact Exec.run_bind_error (loaded cpu' same)
      | ok pte =>
          unfold walk
          simp only [Exec.run_bind_ok (loaded cpu rfl)]
          by_cases bad : (!pte.getLsbD 0 || (!pte.getLsbD 1 && pte.getLsbD 2)) = true
          · refine .inr ⟨.error e, fun cpu' same => ?_⟩
            rw [Exec.run_bind_ok (loaded cpu' same), if_pos bad]
            rfl
          by_cases leaf : (pte.getLsbD 1 || pte.getLsbD 3) = true
          · refine .inr ⟨.ok (pte, level), fun cpu' same => ?_⟩
            rw [Exec.run_bind_ok (loaded cpu' same), if_neg bad, if_pos leaf]
            rfl
          · rw [if_neg bad, if_neg leaf]
            obtain ⟨c, crashes⟩ | ⟨result, walked⟩ := ih (((pte >>> 10) &&& 0x0fffffffffff) * PAGE_SIZE)
            · exact .inl ⟨c, crashes⟩
            · refine .inr ⟨result, fun cpu' same => ?_⟩
              rw [Exec.run_bind_ok (loaded cpu' same), if_neg bad, if_neg leaf]
              exact walked cpu' same

/-- What an address is translated with. -/
def SameMmu (cpu cpu' : Cpu) : Prop :=
  cpu'.bus = cpu.bus ∧ cpu'.enable_paging = cpu.enable_paging ∧ cpu'.pagetable = cpu.pagetable

theorem translate_run (addr : Word) (e : Exception) (cpu : Cpu) :
    (∃ c, (translate addr e).run cpu = .error c) ∨
      ∃ result, ∀ cpu', SameMmu cpu cpu' → (translate addr e).run cpu' = .ok (result, cpu') := by
  have start : ∀ cpu', SameMmu cpu cpu' → (translate addr e).run cpu' =
      (translateWith cpu.enable_paging cpu.pagetable addr e).run cpu' := by
    intro cpu' same
    rw [← same.2.1, ← same.2.2]
    unfold translate
    exact @Exec.run_bind_ok _ _ _ get _ cpu' cpu' cpu' rfl
  by_cases flat : cpu.enable_paging = false
  · refine .inr ⟨.ok addr, fun cpu' same => ?_⟩
    rw [start cpu' same, translateWith, if_pos flat]
    rfl
  obtain ⟨c, crashes⟩ | ⟨result, walked⟩ := walk_run addr e 3 cpu.pagetable cpu
  · refine .inl ⟨c, ?_⟩
    rw [start cpu ⟨rfl, rfl, rfl⟩, translateWith, if_neg flat]
    exact Exec.run_bind_crash crashes
  · cases result with
    | error e' =>
        refine .inr ⟨.error e', fun cpu' same => ?_⟩
        rw [start cpu' same, translateWith, if_neg flat]
        exact Exec.run_bind_error (walked cpu' same.1)
    | ok leaf =>
        refine .inr ⟨.ok (leafAddr addr leaf.1 leaf.2), fun cpu' same => ?_⟩
        rw [start cpu' same, translateWith, if_neg flat, Exec.run_bind_ok (walked cpu' same.1)]
        rfl

theorem fetchAt_error {ppc : Word} (fault : (fetchAt ppc).run cpu = .ok (.error e, failed)) :
    e = .instructionAccessFault := by
  have start : (fetchAt ppc).run cpu = ((Bus.load ppc 32).run cpu.bus).bind fun loaded =>
      .ok (loaded.1.mapError fun _ => .instructionAccessFault, { cpu with bus := loaded.2 }) := rfl
  rw [start] at fault
  generalize (Bus.load ppc 32).run cpu.bus = loaded at fault
  cases loaded with
  | error c => cases fault
  | ok loaded =>
      obtain ⟨result, bus⟩ := loaded
      cases result <;> cases fault
      rfl

/-- A fetch that meets a page fault changes nothing, and meets it again. -/
theorem fetch_pageFault (fault : fetch.run cpu = .ok (.error .instructionPageFault, failed)) :
    failed = cpu ∧ ∀ cpu', cpu'.pc = cpu.pc → SameMmu cpu cpu' →
      fetch.run cpu' = .ok (.error .instructionPageFault, cpu') := by
  have start : ∀ cpu' : Cpu, fetch.run cpu' =
      (translate cpu'.pc .instructionPageFault >>= fetchAt).run cpu' := by
    intro cpu'
    unfold fetch
    exact @Exec.run_bind_ok _ _ _ get _ cpu' cpu' cpu' rfl
  rw [start] at fault
  obtain ⟨c, crashes⟩ | ⟨result, translated⟩ := translate_run cpu.pc .instructionPageFault cpu
  · rw [Exec.run_bind_crash crashes] at fault
    cases fault
  have here := translated cpu ⟨rfl, rfl, rfl⟩
  cases result with
  | error e' =>
      rw [Exec.run_bind_error here] at fault
      cases fault
      refine ⟨rfl, fun cpu' pc same => ?_⟩
      rw [start, pc]
      exact Exec.run_bind_error (translated cpu' same)
  | ok ppc =>
      rw [Exec.run_bind_ok here] at fault
      cases fetchAt_error fault

/-! ## Saved program counters -/

theorem pc_request {irq : Word} (requested : cpu.request irq = .ok cpu') : cpu'.pc = cpu.pc := by
  unfold request at requested
  obtain ⟨stored, _, done⟩ := bind_ok.mp requested
  cases done
  exact pc_setBits

theorem pc_pollDevices (polled : cpu.pollDevices = .ok cpu') : cpu'.pc = cpu.pc := by
  unfold pollDevices at polled
  simp only [] at polled
  split at polled
  · have pc := pc_request polled
    exact pc
  split at polled
  · obtain ⟨bus, _, requested⟩ := bind_ok.mp polled
    have pc := pc_request requested
    exact pc
  · cases polled
    rfl

theorem pc_checkPendingInterrupt {intr : Option Interrupt}
    (checked : cpu.checkPendingInterrupt = .ok (intr, cpu')) : cpu'.pc = cpu.pc := by
  unfold checkPendingInterrupt at checked
  split at checked
  · cases checked
    rfl
  split at checked
  · cases checked
    rfl
  obtain ⟨polled, poll, found⟩ := bind_ok.mp checked
  have pc := pc_pollDevices poll
  simp only [] at found
  split at found
  · cases found
    exact pc_clearBits.trans pc
  · cases found
    exact pc

/-- A trap saves the address four below the program counter. -/
theorem epc_takeTrap (cpu : Cpu) (cause : Cause) :
    (cpu.takeTrap cause).epc (cpu.takeTrap cause).mode = (cpu.pc - 4) &&& ~~~1 := by
  cases delegated : cpu.delegates cause with
  | true =>
      obtain ⟨mode, _, sepc, _⟩ := takeTrap_supervisor delegated
      rw [mode]
      exact sepc
  | false =>
      obtain ⟨mode, _, mepc, _⟩ := takeTrap_machine delegated
      rw [mode]
      exact mepc

/-- That address is never the program counter. -/
theorem four_below_ne (pc : Word) : (pc - 4) &&& ~~~1 ≠ pc := by
  intro same
  have halves : (pc - 4) >>> 1 = pc >>> 1 := by
    have shifted := congrArg (fun word : Word => word >>> 1) same
    refine Eq.trans ?_ shifted
    show (pc - 4) >>> 1 = ((pc - 4) &&& ~~~1) >>> 1
    apply BitVec.eq_of_getLsbD_eq
    intro i small
    have kept : (~~~1 : Word).getLsbD (1 + i) = decide (1 + i < 64) := by
      have one : (1 : Word) = 1#64 := rfl
      rw [one, BitVec.getLsbD_not, BitVec.getLsbD_one]
      simp
    simp only [BitVec.getLsbD_ushiftRight, BitVec.getLsbD_and, kept]
    by_cases inside : 1 + i < 64
    · simp [inside]
    · rw [BitVec.getLsbD_of_ge _ _ (by omega), Bool.false_and]
  have numbers := congrArg BitVec.toNat halves
  have below : (pc - 4).toNat = (2 ^ 64 - 4 + pc.toNat) % 2 ^ 64 := BitVec.toNat_sub ..
  have bound := pc.isLt
  rw [BitVec.toNat_ushiftRight, BitVec.toNat_ushiftRight, below, Nat.shiftRight_eq_div_pow,
    Nat.shiftRight_eq_div_pow] at numbers
  omega

/-- The round of the loop is precise about the program counters that it saves. After an instruction
that completed, an interrupt saves the address of the next one, where execution goes on after the
return; and an instruction page fault saves the faulting address, and the next instruction that is
executed is the one at the trap vector. -/
structure Precise (cpu : Cpu) : Prop where
  interrupt : ∀ chars done after intr, cpu.fetchExecute = .ok (.completed done) →
    cpu.round chars = .ok (.trapped after, some intr) → after.epc after.mode = done.pc ∧
      ∀ leave resumed, SameTrapCsrs after leave → Returns after.mode leave resumed →
        resumed.pc = done.pc
  fetchFault : ∀ failed after, fetch.run cpu = .ok (.error .instructionPageFault, failed) →
    cpu.fetchExecute = .ok (.trapped after) →
      after.epc (failed.takeTrap (.exception .instructionPageFault)).mode = cpu.pc ∧
        ∃ fetched, fetch.run (failed.takeTrap (.exception .instructionPageFault)) =
          .ok (.ok (instOf (.error .instructionPageFault)), fetched)

/-- No interrupt is taken after an instruction that completed, and the fetch meets no page fault. -/
def Undisturbed (cpu : Cpu) : Prop :=
  (∀ chars done after intr, cpu.fetchExecute = .ok (.completed done) →
    cpu.round chars ≠ .ok (.trapped after, some intr)) ∧
  ∀ failed, fetch.run cpu ≠ .ok (.error .instructionPageFault, failed)

/-- After a fetch that failed, the word 0 is executed at the trap vector, which takes another trap. -/
theorem fetchExecute_pageFault (fault : fetch.run cpu = .ok (.error .instructionPageFault, cpu)) :
    ∃ second : Cpu, cpu.fetchExecute = .ok (.trapped (second.takeTrap (.exception .illegalInstruction))) ∧
      second.pc = (cpu.takeTrap (.exception .instructionPageFault)).pc + 4 ∧
      second.mode = (cpu.takeTrap (.exception .instructionPageFault)).mode ∧
      second.csrs = (cpu.takeTrap (.exception .instructionPageFault)).csrs := by
  let entered := cpu.takeTrap (.exception .instructionPageFault)
  refine ⟨({ entered with pc := entered.pc + 4 } : Cpu).setReg 0 0, ?_, rfl, rfl, rfl⟩
  have executed : ∀ cpu : Cpu, (execute 0).run cpu = .ok (.error .illegalInstruction, cpu.setReg 0 0) :=
    fun _ => rfl
  unfold fetchExecute
  rw [fault, ok_bind]
  simp only [Exception.isFatal, Bool.false_eq_true, if_false, instOf]
  rw [executed, ok_bind]
  rfl

/-- An interrupt that is taken saves the wrong address. -/
theorem interrupt_epc {chars : List UInt8} {done after : Cpu} {intr : Interrupt}
    (completed : cpu.fetchExecute = .ok (.completed done))
    (taken : cpu.round chars = .ok (.trapped after, some intr)) : after.epc after.mode ≠ done.pc := by
  unfold round at taken
  rw [completed, ok_bind] at taken
  obtain ⟨checked, check, taken⟩ := bind_ok.mp taken
  obtain ⟨found, cpu'⟩ := checked
  have pc : cpu'.pc = (done.receive chars).pc := pc_checkPendingInterrupt check
  cases found with
  | none => cases taken
  | some intr =>
      cases taken
      rw [epc_takeTrap, pc]
      exact four_below_ne done.pc

theorem SameMmu.trans {first second third : Cpu} (one : SameMmu first second)
    (two : SameMmu second third) : SameMmu first third :=
  ⟨two.1.trans one.1, two.2.1.trans one.2.1, two.2.2.trans one.2.2⟩

theorem sameMmu_storeCsr (cpu : Cpu) (addr : BitVec 12) (value : Word) :
    SameMmu cpu (cpu.storeCsr addr value) := by
  unfold storeCsr
  split <;> exact ⟨rfl, rfl, rfl⟩

theorem sameMmu_copyBit (cpu : Cpu) (addr : BitVec 12) (source target : Nat) :
    SameMmu cpu (cpu.copyBit addr source target) := by
  unfold copyBit
  split <;> exact sameMmu_storeCsr ..

/-- A trap does not change how addresses are translated. -/
theorem sameMmu_takeTrap (cpu : Cpu) (cause : Cause) : SameMmu cpu (cpu.takeTrap cause) := by
  have enter : ∀ mode pc, SameMmu cpu (cpu.goTo mode pc) := fun _ _ => ⟨rfl, rfl, rfl⟩
  unfold takeTrap
  split
  · have saved := (((enter .supervisor (cpu.vector STVEC cause)).trans
      (sameMmu_storeCsr _ SEPC ((cpu.pc - 4) &&& ~~~1))).trans
      (sameMmu_storeCsr _ SCAUSE cause.word)).trans (sameMmu_storeCsr _ STVAL 0)
    have status := saved.trans (sameMmu_copyBit _ SSTATUS 1 5)
    simp only []
    split
    · exact (status.trans (sameMmu_storeCsr ..)).trans (sameMmu_storeCsr ..)
    · exact (status.trans (sameMmu_storeCsr ..)).trans (sameMmu_storeCsr ..)
  · have saved := (((enter .machine (cpu.vector MTVEC cause)).trans
      (sameMmu_storeCsr _ MEPC ((cpu.pc - 4) &&& ~~~1))).trans
      (sameMmu_storeCsr _ MCAUSE cause.word)).trans (sameMmu_storeCsr _ MTVAL 0)
    have status := saved.trans (sameMmu_copyBit _ MSTATUS 3 7)
    exact (status.trans (sameMmu_storeCsr ..)).trans (sameMmu_storeCsr ..)

/-- The address of an exception handler is even. -/
theorem even_takeTrap (cpu : Cpu) (e : Exception) :
    (cpu.takeTrap (.exception e)).pc &&& ~~~1 = (cpu.takeTrap (.exception e)).pc := by
  have even : ∀ tvec, cpu.vector tvec (.exception e) &&& ~~~1 = cpu.vector tvec (.exception e) := by
    intro tvec
    unfold vector
    rw [if_neg (by simp [Cause.isInterrupt])]
    have zero : ∀ word : Word, word + 0 = word := BitVec.add_zero
    rw [zero, BitVec.and_assoc, BitVec.and_self]
  cases delegated : cpu.delegates (.exception e) with
  | true =>
      rw [(takeTrap_supervisor delegated).2.1]
      exact even STVEC
  | false =>
      rw [(takeTrap_machine delegated).2.1]
      exact even MTVEC

/-- A page fault of the fetch is not precise. -/
theorem fetchFault_imprecise (fault : fetch.run cpu = .ok (.error .instructionPageFault, failed)) :
    ¬ cpu.Precise := by
  intro precise
  obtain ⟨rfl, again⟩ := fetch_pageFault fault
  obtain ⟨second, outcome, pc, mode, csrs⟩ := fetchExecute_pageFault fault
  obtain ⟨saved, fetched, atVector⟩ := precise.fetchFault failed _ fault outcome
  let entered := failed.takeTrap (.exception .instructionPageFault)
  have mmu : SameMmu failed entered := sameMmu_takeTrap failed _
  -- The second trap saves over the first one, unless it goes to the other mode.
  by_cases same : (second.takeTrap (.exception .illegalInstruction)).mode = entered.mode
  · have address := epc_takeTrap second (.exception .illegalInstruction)
    rw [same] at address
    have vector : entered.pc &&& ~~~1 = failed.pc := by
      rw [← saved, address, pc]
      show _ = (entered.pc + 4 - 4) &&& ~~~1
      rw [add_sub_cancel_right]
    have atPc : entered.pc = failed.pc := (even_takeTrap failed _).symm.trans vector
    rw [again entered atPc mmu] at atVector
    cases atVector
  · have first : entered.mode = .supervisor ∧
        second.delegates (.exception .illegalInstruction) = false := by
      rw [takeTrap_mode] at same
      cases delegated : second.delegates (.exception .illegalInstruction) with
      | true =>
          rw [if_pos delegated] at same
          rw [delegates, Bool.and_eq_true, bne_iff_ne, mode] at delegated
          have target : entered.mode = if failed.delegates (.exception .instructionPageFault) = true
            then .supervisor else .machine := takeTrap_mode
          split at target
          · exact absurd target.symm same
          · exact absurd target delegated.1
      | false =>
          rw [if_neg (by simp [delegated])] at same
          have target : entered.mode = if failed.delegates (.exception .instructionPageFault) = true
            then .supervisor else .machine := takeTrap_mode
          split at target
          · exact ⟨target, rfl⟩
          · exact absurd target.symm same
    obtain ⟨supervisor, undelegated⟩ := first
    have kept : (second.takeTrap (.exception .illegalInstruction)).loadCsr SEPC =
        entered.loadCsr SEPC := by
      rw [(takeTrap_machine undelegated).2.2.2.2.2.2, loadCsr, csrs]
      rfl
    have address := epc_takeTrap failed (.exception .instructionPageFault)
    change entered.mode = _ at supervisor
    change (second.takeTrap (.exception .illegalInstruction)).epc entered.mode = _ at saved
    change entered.epc entered.mode = _ at address
    rw [supervisor] at saved address
    exact four_below_ne failed.pc (address.symm.trans (kept.symm.trans saved))

/-- A round is precise exactly when it takes no interrupt after an instruction that completed and meets
no instruction page fault. -/
theorem precise_iff (cpu : Cpu) : cpu.Precise ↔ cpu.Undisturbed := by
  constructor
  · intro precise
    refine ⟨fun chars done after intr completed taken => ?_, fun failed fault => ?_⟩
    · exact interrupt_epc completed taken (precise.interrupt chars done after intr completed taken).1
    · exact fetchFault_imprecise fault precise
  · rintro ⟨noInterrupt, noFault⟩
    refine ⟨fun chars done after intr completed taken => ?_, fun failed after fault => ?_⟩
    · exact absurd taken (noInterrupt chars done after intr completed)
    · exact absurd fault (noFault failed)

/-- What the loop has reached after some rounds in which nothing arrives and no trap is taken. -/
def reached (cpu : Cpu) : Nat → Option Cpu
  | 0 => some cpu
  | n + 1 =>
      match cpu.round [] with
      | .ok (.completed cpu, none) => cpu.reached n
      | _ => none

/-- `addi t0, x0, 128`, `csrw mie, t0`, `csrw mip, t0` and `csrsi mstatus, 8`. -/
def enablesTimer : List UInt8 :=
  [0x93, 0x02, 0x00, 0x08, 0x73, 0x90, 0x42, 0x30, 0x73, 0x90, 0x42, 0x34, 0x73, 0x60, 0x04, 0x30]

/-- The interrupt after the `csrsi` saves the address of the `csrsi`. -/
theorem timer_repeats_csrsi : ∃ cpu done after, (new enablesTimer #[]).reached 3 = some cpu ∧
    cpu.fetchExecute = .ok (.completed done) ∧ done.pc = 0x80000010 ∧
      cpu.round [] = .ok (.trapped after, some .machineTimer) ∧
        after.epc after.mode = 0x8000000c ∧ ¬ cpu.Precise := by
  have run : ∃ cpu done after, (new enablesTimer #[]).reached 3 = some cpu ∧
      cpu.fetchExecute = .ok (.completed done) ∧ done.pc = 0x80000010 ∧
        cpu.round [] = .ok (.trapped after, some .machineTimer) ∧ after.epc after.mode = 0x8000000c :=
    ⟨_, _, _, rfl, rfl, rfl, rfl, rfl⟩
  obtain ⟨cpu, done, after, start, completed, pc, taken, saved⟩ := run
  refine ⟨cpu, done, after, start, completed, pc, taken, saved, fun precise => ?_⟩
  have right := (precise.interrupt [] done after _ completed taken).1
  rw [saved, pc] at right
  exact absurd right (by decide)

end Cpu

end Riscv2os.Semu
