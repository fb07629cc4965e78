import Riscv2os.Semu.Access
import Riscv2os.Semu.BaseInstructions
import Riscv2os.Std.ClaimRegister
import Riscv2os.Std.TransitionSystem

/-!
# External interrupts of the machine emulator

The requests that `cpu_check_pending_interrupt` takes from the UART and from the disk, and what the guest finds of
them in the claim register of the interrupt controller.
-/

namespace Riscv2os.Semu

open Riscv2os.Std

namespace Cpu

variable {cpu cpu' : Cpu}

/-- The claim register. -/
def sclaim (cpu : Cpu) : Word := cpu.bus.plic.sclaim

/-- The accesses of an instruction to `SCLAIM`. A word that is loaded with 32 bits reads it, also in an atomic
instruction. -/
def claimAccesses (cpu : Cpu) (inst : Word) : List (ClaimAccess Word) :=
  let rs1 := cpu.visible (rs1Of inst)
  let rs2 := cpu.visible (rs2Of inst)
  let funct3 := funct3Of inst
  let funct5 := (funct7Of inst &&& 0x7c) >>> 2
  match (inst &&& 0x7f).toNat with
  | 0x03 =>
      let addr := rs1 + ((int32 inst).sshiftRight 20).signExtend 64
      if (funct3 = 0x2 ∨ funct3 = 0x6) ∧ cpu.place addr = some PLIC_SCLAIM then [.read] else []
  | 0x23 => if funct3 = 0x2 ∧ cpu.place (rs1 + immS inst) = some PLIC_SCLAIM then [.write rs2] else []
  | 0x2f =>
      if funct3 = 0x2 ∧ funct5 = 0x00 ∧ cpu.place rs1 = some PLIC_SCLAIM then
        [.read, .write (cpu.sclaim + rs2)]
      else if funct3 = 0x2 ∧ funct5 = 0x01 ∧ cpu.place rs1 = some PLIC_SCLAIM then [.read, .write rs2]
      else []
  | _ => []

/-- The accesses of the instruction that is fetched next. -/
def nextAccesses (cpu : Cpu) : List (ClaimAccess Word) :=
  match fetch.run cpu with
  | .ok (.ok inst, cpu) => ({ cpu with pc := cpu.pc + 4 } : Cpu).claimAccesses inst
  | _ => []

/-- The device whose request `cpu_check_pending_interrupt` takes. -/
def takes (cpu : Cpu) : List (ClaimAccess Word) :=
  if cpu.mode = .machine ∧ cpu.csrBit MSTATUS 3 = false then []
  else if cpu.mode = .supervisor ∧ cpu.csrBit SSTATUS 1 = false then []
  else if cpu.bus.uart.interrupting then [.request UART_IRQ]
  else if cpu.bus.virtio.queue_notify ≠ -1 then [.request VIRTIO_IRQ]
  else []

end Cpu

/-- What happens next: a character arrives, an instruction is executed, or the devices are asked. -/
inductive LoopAction where
  | receive (c : UInt8)
  | instruction
  | check
deriving DecidableEq, Repr

/-- The processor, and what was requested of it and reported by it. -/
structure Logged where
  cpu : Cpu
  history : List (ClaimEvent Word)

namespace Logged

/-- The claim register with its history. -/
def claim (state : Logged) : ClaimRegister Word := ⟨state.cpu.sclaim, state.history⟩

/-- The accesses to the claim register. -/
def accesses (state : Logged) : LoopAction → List (ClaimAccess Word)
  | .receive _ => []
  | .instruction => state.cpu.nextAccesses
  | .check => state.cpu.takes

/-- The processor after an action, where the loop goes on. -/
def act (cpu : Cpu) : LoopAction → Option Cpu
  | .receive c => some (cpu.receive [c])
  | .instruction =>
      match cpu.fetchExecute with
      | .ok (.completed cpu) => some cpu
      | .ok (.trapped cpu) => some cpu
      | _ => none
  | .check =>
      match cpu.checkPendingInterrupt with
      | .ok (none, cpu) => some cpu
      | .ok (some intr, cpu) => some (cpu.takeTrap (.interrupt intr))
      | .error _ => none

/-- The state after an action. -/
def next (state : Logged) (action : LoopAction) : Option Logged :=
  (act state.cpu action).map fun cpu => ⟨cpu, (state.claim.afterAll (state.accesses action)).history⟩

/-- The loop of `main` with characters that arrive at any time. -/
def system : TransitionSystem Logged LoopAction where
  Initial state := ∃ code disk, state = ⟨.new code disk, []⟩
  Step state action state' := state.next action = some state'

end Logged

/-! ## Who changes the claim register -/

theorem Plic.sclaim_store {addr : Word} {size : Nat} (apart : size ≠ 32 ∨ addr ≠ PLIC_SCLAIM) (plic : Plic)
    (value : Word) : (plic.store addr size value).2.sclaim = plic.sclaim := by
  unfold Plic.store
  split
  · rfl
  next word =>
  split
  · rfl
  split
  · rfl
  split
  · rfl
  split
  · next found => exact absurd found (apart.resolve_left word)
  · rfl

/-- A store that is not one of a word to `SCLAIM`. -/
theorem Bus.store_keeps {addr : Word} {size : Nat} (apart : size ≠ 32 ∨ addr ≠ PLIC_SCLAIM) (value : Word) :
    (Bus.store addr size value).Keeps (fun bus => bus.plic.sclaim) (fun _ => True) := by
  constructor
  · intro bus result bus' ran
    rw [store_select] at ran
    unfold Target.store at ran
    split at ran
    · cases ran
      rfl
    · cases ran
      exact Plic.sclaim_store apart _ _
    · obtain ⟨stored, _, ran⟩ := bind_ok.mp ran
      cases ran
      rfl
    · cases ran
      rfl
    · obtain ⟨stored, _, ran⟩ := bind_ok.mp ran
      cases ran
      rfl
    · cases ran
      rfl
  · exact fun _ => trivial

namespace Cpu

variable {cpu cpu' : Cpu} {addr value : Word} {size : Nat}

/-- The call leaves the claim register alone. -/
abbrev KeepsClaim {α : Type} (call : Exec Cpu α) : Prop := call.Keeps sclaim fun _ => True

theorem load_keepsClaim (addr : Word) (size : Nat) : KeepsClaim (load addr size) :=
  (load_keeps Bus.load_keeps addr size).weaken Plic.sclaim

theorem translate_keepsClaim (addr : Word) (e : Exception) : KeepsClaim (translate addr e) :=
  (translate_keeps Bus.load_keeps addr e).weaken Plic.sclaim

theorem writeRd_keepsClaim (inst value : Word) : KeepsClaim (writeRd inst value) := .modify fun _ => rfl

theorem reg_keepsClaim (r : RiscV.Reg) : KeepsClaim (reg r) := .bind .get fun _ => .pure _

/-- A store changes the claim register if it is one of a word to it. -/
theorem store_sclaim {result : Except Exception Unit}
    (ran : (store addr size value).run cpu = .ok (result, cpu')) :
    cpu'.sclaim = if size = 32 ∧ cpu.place addr = some PLIC_SCLAIM then value else cpu.sclaim := by
  unfold store at ran
  obtain ⟨c, crashes⟩ | ⟨found, translated⟩ := translate_run addr .storeAmoPageFault cpu
  · rw [Exec.run_bind_crash crashes] at ran
    cases ran
  have here := translated cpu ⟨rfl, rfl, rfl⟩
  cases found with
  | error e =>
      have nowhere : cpu.place addr ≠ some PLIC_SCLAIM := by
        intro placed
        rw [translate_place placed] at here
        cases here
      rw [Exec.run_bind_error here] at ran
      cases ran
      rw [if_neg fun both => nowhere both.2]
  | ok pa =>
      have placed : cpu.place addr = some pa := by
        rw [place, translate_found here .loadPageFault]
      rw [Exec.run_bind_ok here] at ran
      obtain ⟨bus, reached, rfl⟩ := onBus_ok.mp ran
      rw [placed]
      by_cases claim : size = 32 ∧ pa = PLIC_SCLAIM
      · obtain ⟨rfl, rfl⟩ := claim
        rw [if_pos ⟨rfl, rfl⟩]
        cases reached
        rfl
      · have apart : size ≠ 32 ∨ pa ≠ PLIC_SCLAIM := not_and_or.mp claim
        rw [if_neg fun both => claim ⟨both.1, Option.some.inj both.2⟩]
        exact (Bus.store_keeps apart value).state reached

/-- The load of a word from the claim register gives what is in it. -/
theorem load_sclaim (placed : cpu.place addr = some PLIC_SCLAIM) :
    (load addr 32).run cpu = .ok (.ok cpu.sclaim, cpu) := by
  unfold load
  rw [Exec.run_bind_ok (translate_place placed .loadPageFault)]
  rfl

/-- `cpu_execute` begins with clearing `x0`. -/
theorem clear_run (cpu : Cpu) :
    (modify fun cpu => cpu.setReg 0 0 : Exec Cpu Unit).run cpu = .ok (.ok (), cpu.setReg 0 0) := rfl

/-- A load that reads the claim register leaves what is in it in a register, as far as its lower half. -/
theorem execute_reads {inst : Word} (reads : cpu.claimAccesses inst = [.read]) :
    ∃ value, int32 value = int32 cpu.sclaim ∧
      (execute inst).run cpu = .ok (.ok (), (cpu.setReg 0 0).setReg (rdOf inst) value) := by
  have mmu : SameMmu cpu (cpu.setReg 0 0) := ⟨rfl, rfl, rfl⟩
  unfold claimAccesses at reads
  dsimp only at reads
  split at reads
  · next code =>
      split at reads
      · next found =>
          obtain ⟨width, placed⟩ := found
          have loads := load_sclaim ((place_congr mmu).trans placed)
          have loaded : ∃ value, int32 value = int32 cpu.sclaim ∧ (execLoad inst).run (cpu.setReg 0 0) =
              .ok (.ok (), (cpu.setReg 0 0).setReg (rdOf inst) value) := by
            unfold execLoad
            rw [Exec.run_bind_ok (reg_run ..)]
            rcases width with signed | unsigned
            · rw [signed]
              exact ⟨word cpu.sclaim, int32_word _, Exec.run_bind_ok loads⟩
            · rw [unsigned]
              exact ⟨cpu.sclaim, rfl, Exec.run_bind_ok loads⟩
          obtain ⟨value, low, ran⟩ := loaded
          refine ⟨value, low, ?_⟩
          unfold execute
          rw [Exec.run_bind_ok (clear_run cpu), code]
          exact ran
      · cases reads
  · split at reads <;> simp at reads
  · split at reads
    · simp at reads
    · split at reads <;> simp at reads
  · simp at reads

/-- An atomic instruction on a word changes the claim register if it is at it. -/
theorem amo_sclaim {inst : Word} {f : Word → Word → Word} {result : Except Exception Unit}
    (ran : (amo inst 32 f).run cpu = .ok (result, cpu')) :
    cpu'.sclaim = if cpu.place (cpu.regs (rs1Of inst)) = some PLIC_SCLAIM
      then f cpu.sclaim (cpu.regs (rs2Of inst)) else cpu.sclaim := by
  unfold amo at ran
  rw [Exec.run_bind_ok (reg_run ..)] at ran
  cases loaded : (load (cpu.regs (rs1Of inst)) 32).run cpu with
  | error c =>
      rw [Exec.run_bind_crash loaded] at ran
      cases ran
  | ok reached =>
      obtain ⟨found, mid⟩ := reached
      cases found with
      | error e =>
          have elsewhere : cpu.place (cpu.regs (rs1Of inst)) ≠ some PLIC_SCLAIM := by
            intro placed
            rw [load_sclaim placed] at loaded
            cases loaded
          rw [Exec.run_bind_error loaded] at ran
          cases ran
          rw [if_neg elsewhere]
          exact (load_keepsClaim ..).state loaded
      | ok t =>
          have same := load_word_same loaded
          subst same
          rw [Exec.run_bind_ok loaded, Exec.run_bind_ok (reg_run ..), Exec.run_bind_ok (reg_run ..)] at ran
          have kept : ∀ {stored after}, (store (mid.regs (rs1Of inst)) 32 (f t (mid.regs (rs2Of inst)))).run mid =
              .ok (stored, after) → cpu'.sclaim = after.sclaim := by
            intro stored after storing
            cases stored with
            | error e =>
                rw [Exec.run_bind_error storing] at ran
                cases ran
                rfl
            | ok =>
                rw [Exec.run_bind_ok storing] at ran
                exact (writeRd_keepsClaim inst t).state ran
          cases storing : (store (mid.regs (rs1Of inst)) 32 (f t (mid.regs (rs2Of inst)))).run mid with
          | error c =>
              rw [Exec.run_bind_crash storing] at ran
              cases ran
          | ok reached =>
              rw [kept storing, store_sclaim storing]
              by_cases placed : mid.place (mid.regs (rs1Of inst)) = some PLIC_SCLAIM
              · rw [load_sclaim placed] at loaded
                cases loaded
                rw [if_pos ⟨rfl, placed⟩, if_pos placed]
              · rw [if_neg fun both => placed both.2, if_neg placed]

/-! ### The groups of instructions -/

theorem store_keepsClaim (wide : size ≠ 32) (addr value : Word) : KeepsClaim (store addr size value) := by
  apply Exec.Keeps.bind (translate_keepsClaim ..)
  intro pa
  exact onBus_keeps (Bus.store_keeps (.inl wide) value)

theorem amo_keepsClaim (wide : size ≠ 32) (inst : Word) (f : Word → Word → Word) :
    KeepsClaim (amo inst size f) := by
  apply Exec.Keeps.bind (reg_keepsClaim _)
  intro a
  apply Exec.Keeps.bind (load_keepsClaim ..)
  intro t
  apply Exec.Keeps.bind (reg_keepsClaim _)
  intro a
  apply Exec.Keeps.bind (reg_keepsClaim _)
  intro b
  apply Exec.Keeps.bind (store_keepsClaim wide ..)
  intro _
  exact writeRd_keepsClaim ..

theorem execLoad_keepsClaim (inst : Word) : KeepsClaim (execLoad inst) := by
  apply Exec.Keeps.bind (reg_keepsClaim _)
  intro a
  dsimp only
  split
  case h_8 => exact .throw _
  all_goals exact .bind (load_keepsClaim ..) fun _ => writeRd_keepsClaim ..

theorem execOpImm_keepsClaim (inst : Word) : KeepsClaim (execOpImm inst) := by
  apply Exec.Keeps.bind (reg_keepsClaim _)
  intro a
  dsimp only
  repeat' split
  all_goals first | exact writeRd_keepsClaim .. | exact .throw _

theorem execOp_keepsClaim (inst : Word) : KeepsClaim (execOp inst) := by
  apply Exec.Keeps.bind (reg_keepsClaim _)
  intro a
  apply Exec.Keeps.bind (reg_keepsClaim _)
  intro b
  repeat apply Exec.Keeps.ite (writeRd_keepsClaim ..)
  exact .throw _

theorem execOpImm32_keepsClaim (inst : Word) : KeepsClaim (execOpImm32 inst) := by
  apply Exec.Keeps.bind (reg_keepsClaim _)
  intro a
  dsimp only
  repeat' split
  all_goals first | exact writeRd_keepsClaim .. | exact .throw _

theorem execOp32_keepsClaim (inst : Word) : KeepsClaim (execOp32 inst) := by
  have crash : KeepsClaim (Exec.crash .divisionByZero : Exec Cpu Unit) := ⟨nofun, fun _ => trivial⟩
  apply Exec.Keeps.bind (reg_keepsClaim _)
  intro a
  apply Exec.Keeps.bind (reg_keepsClaim _)
  intro b
  repeat apply Exec.Keeps.ite (writeRd_keepsClaim ..)
  -- What is left is the remainder, which may divide by zero, and the refusal.
  exact .ite (.ite (writeRd_keepsClaim ..) (.ite crash (writeRd_keepsClaim ..))) (.throw _)

theorem execFence_keepsClaim (inst : Word) : KeepsClaim (execFence inst) := by
  unfold execFence
  split
  · exact .pure _
  · exact .throw _

theorem execBranch_keepsClaim (inst : Word) : KeepsClaim (execBranch inst) := by
  apply Exec.Keeps.bind (reg_keepsClaim _)
  intro a
  apply Exec.Keeps.bind (reg_keepsClaim _)
  intro b
  split
  · exact .modify fun _ => rfl
  · exact .pure _
  · exact .throw _

theorem execJalr_keepsClaim (inst : Word) : KeepsClaim (execJalr inst) := by
  apply Exec.Keeps.bind .get
  intro cpu
  apply Exec.Keeps.bind (reg_keepsClaim _)
  intro a
  exact .bind (.modify fun _ => rfl) fun _ => writeRd_keepsClaim ..

theorem execJal_keepsClaim (inst : Word) : KeepsClaim (execJal inst) := by
  apply Exec.Keeps.bind .get
  intro cpu
  exact .bind (writeRd_keepsClaim ..) fun _ => .modify fun _ => rfl

theorem execAuipc_keepsClaim (inst : Word) : KeepsClaim (execAuipc inst) :=
  .bind .get fun _ => writeRd_keepsClaim ..

/-- What translates addresses in the same way has the same claim register. -/
theorem SameMmu.sclaim (same : SameMmu cpu cpu') : cpu'.sclaim = cpu.sclaim := by
  rw [Cpu.sclaim, Cpu.sclaim, same.1]

theorem csrOp_keepsClaim (inst : Word) (addr : BitVec 12) {operand : Exec Cpu Word} (keeps : KeepsClaim operand)
    (f : Word → Word → Word) : KeepsClaim (csrOp inst addr operand f) := by
  apply Exec.Keeps.bind .get
  intro cpu
  apply Exec.Keeps.bind keeps
  intro a
  apply Exec.Keeps.bind (.modify fun _ => (sameMmu_storeCsr ..).sclaim)
  intro _
  apply Exec.Keeps.bind (writeRd_keepsClaim ..)
  intro _
  apply Exec.Keeps.modify
  intro cpu
  unfold updatePaging
  split <;> rfl

theorem sameMmu_sret (cpu : Cpu) : SameMmu cpu cpu.sret := by
  have entered : SameMmu cpu (cpu.goTo (if cpu.csrBit SSTATUS 8 then .supervisor else .user) (cpu.loadCsr SEPC)) :=
    ⟨rfl, rfl, rfl⟩
  exact ((entered.trans (sameMmu_copyBit _ SSTATUS 5 1)).trans (sameMmu_storeCsr ..)).trans (sameMmu_storeCsr ..)

theorem sameMmu_mret (cpu : Cpu) : SameMmu cpu cpu.mret := by
  have entered : SameMmu cpu (cpu.goTo cpu.mpp (cpu.loadCsr MEPC)) := ⟨rfl, rfl, rfl⟩
  exact ((entered.trans (sameMmu_copyBit _ MSTATUS 7 3)).trans (sameMmu_storeCsr ..)).trans (sameMmu_storeCsr ..)

theorem ecall_keepsClaim : KeepsClaim ecall := by
  apply Exec.Keeps.bind .get
  intro cpu
  split <;> exact .throw _

theorem execSystem_keepsClaim (inst : Word) : KeepsClaim (execSystem inst) := by
  unfold execSystem
  dsimp only
  split
  · split
    · exact ecall_keepsClaim
    split
    · exact .throw _
    split
    · exact .modify fun cpu => (sameMmu_sret cpu).sclaim
    split
    · exact .modify fun cpu => (sameMmu_mret cpu).sclaim
    split
    · exact .pure _
    · exact .throw _
  case h_2 | h_3 | h_4 => exact csrOp_keepsClaim _ _ (reg_keepsClaim _) _
  case h_5 | h_6 | h_7 => exact csrOp_keepsClaim _ _ (.pure _) _
  case h_8 => exact .throw _

/-- Only stores and atomic instructions change the claim register. -/
theorem execute_keepsClaim {inst : Word} (store : (inst &&& 0x7f).toNat ≠ 0x23)
    (amo : (inst &&& 0x7f).toNat ≠ 0x2f) : KeepsClaim (execute inst) := by
  have cleared : KeepsClaim (modify fun cpu => cpu.setReg 0 0) := .modify fun _ => rfl
  apply Exec.Keeps.bind cleared
  intro _
  split
  case h_1 => exact execLoad_keepsClaim inst
  case h_2 => exact execFence_keepsClaim inst
  case h_3 => exact execOpImm_keepsClaim inst
  case h_4 => exact execAuipc_keepsClaim inst
  case h_5 => exact execOpImm32_keepsClaim inst
  case h_6 code => exact absurd code store
  case h_7 code => exact absurd code amo
  case h_8 => exact execOp_keepsClaim inst
  case h_9 => exact writeRd_keepsClaim ..
  case h_10 => exact execOp32_keepsClaim inst
  case h_11 => exact execBranch_keepsClaim inst
  case h_12 => exact execJalr_keepsClaim inst
  case h_13 => exact execJal_keepsClaim inst
  case h_14 => exact execSystem_keepsClaim inst
  case h_15 => exact .throw _

theorem execStore_sclaim {inst : Word} {result : Except Exception Unit}
    (ran : (execStore inst).run cpu = .ok (result, cpu')) :
    cpu'.sclaim = if funct3Of inst = 0x2 ∧ cpu.place (cpu.regs (rs1Of inst) + immS inst) = some PLIC_SCLAIM
      then cpu.regs (rs2Of inst) else cpu.sclaim := by
  have other {code : Nat} (found : (funct3Of inst).toNat = code) (apart : code ≠ 2) : ¬ funct3Of inst = 0x2 := by
    intro word
    rw [word] at found
    exact apart found.symm
  unfold execStore at ran
  rw [Exec.run_bind_ok (reg_run ..), Exec.run_bind_ok (reg_run ..)] at ran
  split at ran
  · next found => rw [store_sclaim ran, if_neg (by simp), if_neg fun both => other found (by decide) both.1]
  · next found => rw [store_sclaim ran, if_neg (by simp), if_neg fun both => other found (by decide) both.1]
  · next found =>
      have word : funct3Of inst = 0x2 := BitVec.eq_of_toNat_eq found
      rw [store_sclaim ran]
      simp only [word, true_and]
  · next found => rw [store_sclaim ran, if_neg (by simp), if_neg fun both => other found (by decide) both.1]
  · next _ _ rest _ =>
      cases ran
      rw [if_neg fun both => rest (congrArg BitVec.toNat both.1)]

theorem execAmo_sclaim {inst : Word} {result : Except Exception Unit}
    (ran : (execAmo inst).run cpu = .ok (result, cpu')) :
    cpu'.sclaim =
      if funct3Of inst = 0x2 ∧ (funct7Of inst &&& 0x7c) >>> 2 = 0x00 ∧
          cpu.place (cpu.regs (rs1Of inst)) = some PLIC_SCLAIM then cpu.sclaim + cpu.regs (rs2Of inst)
      else if funct3Of inst = 0x2 ∧ (funct7Of inst &&& 0x7c) >>> 2 = 0x01 ∧
          cpu.place (cpu.regs (rs1Of inst)) = some PLIC_SCLAIM then cpu.regs (rs2Of inst)
      else cpu.sclaim := by
  unfold execAmo at ran
  dsimp only at ran
  split at ran
  · next found =>
      rw [amo_sclaim ran]
      by_cases placed : cpu.place (cpu.regs (rs1Of inst)) = some PLIC_SCLAIM
      · rw [if_pos placed, if_pos ⟨found.1, found.2, placed⟩]
      · rw [if_neg placed, if_neg fun all => placed all.2.2, if_neg fun all => placed all.2.2]
  next notAdd =>
  split at ran
  · next found =>
      have other : ¬ funct3Of inst = 0x2 := fun word => absurd (word.symm.trans found.1) (by decide)
      rw [(amo_keepsClaim (by decide) inst _).state ran, if_neg fun all => other all.1,
        if_neg fun all => other all.1]
  split at ran
  · next found =>
      have none (rest : Prop) : ¬ (funct3Of inst = 0x2 ∧ (funct7Of inst &&& 0x7c) >>> 2 = 0x00 ∧ rest) :=
        fun all => notAdd ⟨all.1, all.2.1⟩
      rw [amo_sclaim ran]
      by_cases placed : cpu.place (cpu.regs (rs1Of inst)) = some PLIC_SCLAIM
      · rw [if_pos placed, if_neg (none _), if_pos ⟨found.1, found.2, placed⟩]
      · rw [if_neg placed, if_neg (none _), if_neg fun all => placed all.2.2]
  next notSwap =>
  have kept : cpu'.sclaim = cpu.sclaim := by
    split at ran
    · exact (amo_keepsClaim (by decide) inst _).state ran
    · cases ran
      rfl
  rw [kept, if_neg fun all => notAdd ⟨all.1, all.2.1⟩, if_neg fun all => notSwap ⟨all.1, all.2.1⟩]

/-- The claim register after an instruction. -/
theorem execute_sclaim {inst : Word} {result : Except Exception Unit}
    (ran : (execute inst).run cpu = .ok (result, cpu')) (history : List (ClaimEvent Word)) :
    cpu'.sclaim = ((⟨cpu.sclaim, history⟩ : ClaimRegister Word).afterAll (cpu.claimAccesses inst)).value := by
  have mmu : SameMmu cpu (cpu.setReg 0 0) := ⟨rfl, rfl, rfl⟩
  have start := ran
  unfold execute at start
  rw [Exec.run_bind_ok (clear_run cpu)] at start
  by_cases store : (inst &&& 0x7f).toNat = 0x23
  · rw [store] at start
    have value : cpu'.sclaim = if funct3Of inst = 0x2 ∧
        (cpu.setReg 0 0).place (cpu.visible (rs1Of inst) + immS inst) = some PLIC_SCLAIM
        then cpu.visible (rs2Of inst) else cpu.sclaim := execStore_sclaim start
    rw [value, place_congr mmu, claimAccesses, store]
    dsimp only
    split <;> rfl
  by_cases amo : (inst &&& 0x7f).toNat = 0x2f
  · rw [amo] at start
    have value : cpu'.sclaim =
        if funct3Of inst = 0x2 ∧ (funct7Of inst &&& 0x7c) >>> 2 = 0x00 ∧
            (cpu.setReg 0 0).place (cpu.visible (rs1Of inst)) = some PLIC_SCLAIM
          then cpu.sclaim + cpu.visible (rs2Of inst)
        else if funct3Of inst = 0x2 ∧ (funct7Of inst &&& 0x7c) >>> 2 = 0x01 ∧
            (cpu.setReg 0 0).place (cpu.visible (rs1Of inst)) = some PLIC_SCLAIM then cpu.visible (rs2Of inst)
        else cpu.sclaim := execAmo_sclaim start
    rw [value, place_congr mmu, claimAccesses, amo]
    dsimp only
    split
    · rfl
    split <;> rfl
  · rw [(execute_keepsClaim store amo).state ran, claimAccesses]
    dsimp only
    split
    · split <;> rfl
    · next code => exact absurd code store
    · next code => exact absurd code amo
    · rfl

theorem fetchAt_keepsClaim (ppc : Word) : KeepsClaim (fetchAt ppc) := by
  constructor
  · intro cpu result cpu' ran
    obtain ⟨⟨loaded, bus⟩, reached, ran⟩ := bind_ok.mp (show ((Bus.load ppc 32).run cpu.bus >>= _) = _ from ran)
    cases ran
    exact congrArg Plic.sclaim ((Bus.load_keeps ppc 32).state reached)
  · exact fun _ => trivial

theorem fetch_keepsClaim : KeepsClaim fetch := by
  apply Exec.Keeps.bind .get
  intro cpu
  exact .bind (translate_keepsClaim ..) fun _ => fetchAt_keepsClaim _

theorem takeTrap_sclaim (cpu : Cpu) (cause : Cause) : (cpu.takeTrap cause).sclaim = cpu.sclaim :=
  (sameMmu_takeTrap cpu cause).sclaim

/-- The claim register after the first part of a round. -/
theorem fetchExecute_sclaim {outcome : Outcome} {done : Cpu} (ran : cpu.fetchExecute = .ok outcome)
    (goesOn : outcome = .completed done ∨ outcome = .trapped done) (history : List (ClaimEvent Word)) :
    done.sclaim = ((⟨cpu.sclaim, history⟩ : ClaimRegister Word).afterAll cpu.nextAccesses).value := by
  unfold fetchExecute at ran
  unfold nextAccesses
  obtain ⟨⟨fetched, mid⟩, fetching, ran⟩ := bind_ok.mp ran
  have kept : mid.sclaim = cpu.sclaim := fetch_keepsClaim.state fetching
  rw [fetching]
  cases fetched with
  | error e =>
      simp only [] at ran
      split at ran
      · cases ran
        rcases goesOn with left | left <;> cases left
      · -- The word 0 is executed, and is an illegal instruction.
        have illegal : ∀ cpu : Cpu, (execute 0).run cpu = .ok (.error .illegalInstruction, cpu.setReg 0 0) :=
          fun _ => rfl
        simp only [instOf, illegal] at ran
        cases ran
        rcases goesOn with left | left <;> cases left
        exact (takeTrap_sclaim ..).trans ((takeTrap_sclaim mid _).trans kept)
  | ok inst =>
      obtain ⟨⟨executed, after⟩, executing, ran⟩ := bind_ok.mp ran
      have value : after.sclaim = _ := execute_sclaim executing history
      have trapped (e : Exception) : (after.takeTrap (.exception e)).sclaim = after.sclaim := takeTrap_sclaim ..
      rw [← kept]
      cases executed with
      | ok =>
          cases ran
          rcases goesOn with left | left <;> cases left
          exact value
      | error e =>
          simp only [] at ran
          split at ran
          · cases ran
            rcases goesOn with left | left <;> cases left
          · cases ran
            rcases goesOn with left | left <;> cases left
            exact (trapped e).trans value

/-! ### The devices -/

theorem request_sclaim {irq : Word} (requested : cpu.request irq = .ok cpu') : cpu'.sclaim = irq := by
  obtain ⟨⟨result, bus⟩, stored, done⟩ := bind_ok.mp requested
  cases done
  cases stored
  exact (sameMmu_storeCsr ..).sclaim

/-- The claim register after the check. -/
theorem check_sclaim {intr : Option Interrupt} (checked : cpu.checkPendingInterrupt = .ok (intr, cpu'))
    (history : List (ClaimEvent Word)) :
    cpu'.sclaim = ((⟨cpu.sclaim, history⟩ : ClaimRegister Word).afterAll cpu.takes).value := by
  unfold checkPendingInterrupt at checked
  unfold takes
  by_cases machine : cpu.mode = .machine ∧ cpu.csrBit MSTATUS 3 = false
  · rw [if_pos machine] at checked ⊢
    cases checked
    rfl
  by_cases supervisor : cpu.mode = .supervisor ∧ cpu.csrBit SSTATUS 1 = false
  · rw [if_neg machine, if_pos supervisor] at checked ⊢
    cases checked
    rfl
  rw [if_neg machine, if_neg supervisor] at checked ⊢
  obtain ⟨polled, polling, found⟩ := bind_ok.mp checked
  have kept : cpu'.sclaim = polled.sclaim := by
    simp only [] at found
    split at found
    · cases found
      exact (sameMmu_storeCsr ..).sclaim
    · cases found
      rfl
  rw [kept]
  unfold pollDevices at polling
  simp only [] at polling
  split at polling
  · next uart =>
      have pending : cpu.bus.uart.interrupting = true := uart
      rw [if_pos pending]
      exact request_sclaim polling
  next uart =>
  have idle : ¬ cpu.bus.uart.interrupting = true := uart
  rw [if_neg idle]
  unfold Virtio.isInterrupting at polling
  by_cases notified : cpu.bus.virtio.queue_notify ≠ -1
  · rw [if_pos notified] at polling ⊢
    obtain ⟨bus, _, requested⟩ := bind_ok.mp polling
    exact request_sclaim requested
  · rw [if_neg notified] at polling ⊢
    cases polling
    rfl

end Cpu

namespace Logged

variable {state state' : Logged} {action : LoopAction}

/-! ## Requests and reports over runs -/

/-- The claim register of the emulator is one to which the accesses are made. -/
theorem claim_next (stepped : state.next action = some state') :
    state'.claim = state.claim.afterAll (state.accesses action) := by
  obtain ⟨cpu, acted, rfl⟩ := Option.map_eq_some_iff.mp stepped
  have value : cpu.sclaim = (state.claim.afterAll (state.accesses action)).value := by
    cases action with
    | receive c =>
        cases acted
        rfl
    | instruction =>
        unfold act at acted
        dsimp only at acted
        split at acted
        · next ran =>
            cases acted
            exact Cpu.fetchExecute_sclaim ran (.inl rfl) _
        · next ran =>
            cases acted
            exact Cpu.fetchExecute_sclaim ran (.inr rfl) _
        · cases acted
    | check =>
        unfold act at acted
        dsimp only at acted
        split at acted
        · next checked =>
            cases acted
            exact Cpu.check_sclaim checked _
        · next checked =>
            cases acted
            exact (Cpu.takeTrap_sclaim ..).trans (Cpu.check_sclaim checked _)
        · cases acted
  rw [claim, value]

/-- An action makes no access, one, or a read and a write behind it. -/
theorem accesses_cases (state : Logged) (action : LoopAction) : state.accesses action = [] ∨
    (∃ access, state.accesses action = [access]) ∨ ∃ v, state.accesses action = [.read, .write v] := by
  cases action with
  | receive c => exact .inl rfl
  | instruction =>
      unfold accesses Cpu.nextAccesses Cpu.claimAccesses
      dsimp only
      repeat' split
      all_goals simp
  | check =>
      unfold accesses Cpu.takes
      dsimp only
      repeat' split
      all_goals simp

/-- From a sound state a step keeps every request reported exactly if its accesses are timely. -/
theorem next_eachReported (sound : state.claim.Sound) (stepped : state.next action = some state')
    (each : state'.claim.EachReported) : state.claim.AllTimely (state.accesses action) := by
  rw [claim_next stepped] at each
  rcases state.accesses_cases action with none | ⟨access, one⟩ | ⟨v, exchange⟩
  · rw [none]
    trivial
  · rw [one] at each ⊢
    exact ⟨sound.eachReported_after.mp each, trivial⟩
  · rw [exchange] at each ⊢
    exact ⟨(sound.eachReported_exchange v).mp each, .inl (ClaimRegister.waiting_reported ..), trivial⟩

theorem inductive_sound : system.Inductive (fun state action => state.claim.AllTimely (state.accesses action))
    fun state => state.claim.Sound where
  initial := by
    rintro _ ⟨code, disk, rfl⟩
    exact .settled rfl fun earlier n later split => by simp [claim] at split
  preserved := by
    intro state action state' sound timely stepped
    rw [claim_next stepped]
    exact sound.afterAll timely

/-- A run neither loses nor repeats a request, in any state that it reaches, exactly if each of its steps is
timely. -/
theorem eachReported_iff {taken : List (Logged × LoopAction)} (run : system.Run taken state) :
    ((∀ visited ∈ taken, visited.1.claim.EachReported) ∧ state.claim.EachReported) ↔
      ∀ step ∈ taken, step.1.claim.AllTimely (step.1.accesses step.2) :=
  run.forall_iff inductive_sound ClaimRegister.Sound.eachReported next_eachReported

/-- The states that some actions lead to. -/
def play (state : Logged) (actions : List LoopAction) : Option Logged := actions.foldlM next state

theorem play_run {taken : List (Logged × LoopAction)} {actions : List LoopAction} (run : system.Run taken state)
    (played : state.play actions = some state') : ∃ taken, system.Run taken state' := by
  induction actions generalizing taken state with
  | nil =>
      cases played
      exact ⟨taken, run⟩
  | cons action actions ih =>
      obtain ⟨mid, stepped, rest⟩ := Option.bind_eq_some_iff.mp played
      exact ih (run.step stepped) rest

/-- The bytes of a program. -/
def codeOf (words : List Nat) : List UInt8 :=
  words.flatMap fun word => [0, 8, 16, 24].map fun low => UInt8.ofNat (word / 2 ^ low)

/-- `csrsi mstatus, 8`, and then `lui x5, 0xc201` and `lw x6, 4(x5)`, which read the claim register. -/
def readsClaim : List Nat := [0x30046073, 0x0c2012b7, 0x0042a303]

/-- A character is received, and its request is read from the claim register. -/
theorem eachReported_iff_uart : ∃ taken state, system.Run taken state ∧
    state.history = [.requested UART_IRQ, .reported UART_IRQ] ∧
    (((∀ visited ∈ taken, visited.1.claim.EachReported) ∧ state.claim.EachReported) ↔
      ∀ step ∈ taken, step.1.claim.AllTimely (step.1.accesses step.2)) := by
  have played : ((Logged.mk (.new (codeOf readsClaim) #[]) []).play [.receive 65, .instruction, .check,
      .instruction, .check, .instruction, .check]).map Logged.history =
        some [.requested UART_IRQ, .reported UART_IRQ] := by
    decide +kernel
  obtain ⟨state, played, history⟩ := Option.map_eq_some_iff.mp played
  obtain ⟨taken, run⟩ := play_run (.initial ⟨_, _, rfl⟩) played
  exact ⟨taken, state, run, history, eachReported_iff run⟩

/-- `csrsi mstatus, 8`, and then a request to the disk: 64 as the page size, 0x2000001 as the page number of the
queue and a notification. The queue is the data behind the instructions, with a descriptor of length 0. -/
def asksDisk : List Nat :=
  [0x30046073, 0x100012b7, 0x04000313, 0x0262a423, 0x020003b7, 0x00138393, 0x0472a023, 0x0402a823,
    0, 0, 0, 0, 0, 0, 0, 0, 0x80000100, 0]

/-- The request of the UART is still in the claim register when that of the disk is taken. -/
theorem uart_request_lost : ∃ taken state, system.Run taken state ∧
    state.history = [.requested UART_IRQ, .requested VIRTIO_IRQ] ∧ state.cpu.sclaim = VIRTIO_IRQ ∧
    ¬ state.claim.EachReported := by
  have played : ((Logged.mk (.new (codeOf asksDisk) #[]) []).play [.instruction, .receive 65, .check,
      .instruction, .check, .instruction, .check, .instruction, .check, .instruction, .check,
      .instruction, .check, .instruction, .check, .instruction, .check]).map
        (fun state => (state.history, state.cpu.sclaim)) =
          some ([.requested UART_IRQ, .requested VIRTIO_IRQ], VIRTIO_IRQ) := by
    decide +kernel
  obtain ⟨state, played, log⟩ := Option.map_eq_some_iff.mp played
  obtain ⟨history, value⟩ := Prod.mk.inj log
  obtain ⟨taken, run⟩ := play_run (.initial ⟨_, _, rfl⟩) played
  refine ⟨taken, state, run, history, value, fun each => ?_⟩
  rcases each [] UART_IRQ [.requested VIRTIO_IRQ] history with once | ⟨_, _, waits⟩
  · exact absurd once (by decide)
  · exact absurd (value.symm.trans waits) (by decide)

end Logged

end Riscv2os.Semu
