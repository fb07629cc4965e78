import Riscv2os.Semu.Cpu

/-!
# The register and control-flow instructions of the machine emulator

`cpu_execute` for the groups OP, OP-IMM, LUI, AUIPC, JAL, JALR and BRANCH. The program counter is already
behind the instruction. `x0` is cleared at the start of an instruction, so what one leaves there is not seen by
the next.
-/

namespace Riscv2os.Semu

open Riscv2os.Std
open RiscV (Reg RegOp ImmOp BranchOp ControlOp BaseOp writeReg)

section Fields

variable (inst : BitVec 32)

/-- A field of a word that is masked. -/
theorem masked_field (lo len : Nat) : ((inst.setWidth 64) >>> lo) &&& BitVec.ofNat 64 (2 ^ len - 1) =
    (inst.extractLsb' lo len).setWidth 64 := by
  apply BitVec.eq_of_getLsbD_eq
  intro i small
  simp only [BitVec.getLsbD_and, BitVec.getLsbD_ushiftRight, BitVec.getLsbD_setWidth, BitVec.getLsbD_ofNat,
    BitVec.getLsbD_extractLsb', Nat.testBit_two_pow_sub_one, small, decide_true, Bool.true_and]
  by_cases inside : lo + i < 32
  · have wide : lo + i < 64 := by omega
    simp [wide, Bool.and_comm]
  · simp [BitVec.getLsbD_of_ge inst (lo + i) (by omega)]

/-- The number of a register. -/
theorem register_field (lo : Nat) :
    ((inst.setWidth 64) >>> lo).setWidth 5 = inst.extractLsb' lo 5 := by
  apply BitVec.eq_of_getLsbD_eq
  intro i small
  simp only [BitVec.getLsbD_ushiftRight, BitVec.getLsbD_setWidth, BitVec.getLsbD_extractLsb', small,
    decide_true, Bool.true_and]
  by_cases inside : lo + i < 32
  · have wide : lo + i < 64 := by omega
    simp [wide]
  · simp [BitVec.getLsbD_of_ge inst (lo + i) (by omega)]

theorem opcode_eq : (inst.setWidth 64) &&& 0x7f = (RiscV.opcode inst).setWidth 64 := by
  have field := masked_field inst 0 7
  rwa [BitVec.ushiftRight_zero] at field

theorem rdOf_eq : rdOf (inst.setWidth 64) = RiscV.rd inst := register_field inst 7

theorem rs1Of_eq : rs1Of (inst.setWidth 64) = RiscV.rs1 inst := register_field inst 15

theorem rs2Of_eq : rs2Of (inst.setWidth 64) = RiscV.rs2 inst := register_field inst 20

theorem funct3Of_eq : funct3Of (inst.setWidth 64) = (RiscV.funct3 inst).setWidth 64 := masked_field inst 12 3

theorem funct7Of_eq : funct7Of (inst.setWidth 64) = (RiscV.funct7 inst).setWidth 64 := masked_field inst 25 7

theorem immI_eq : immI (inst.setWidth 64) = RiscV.immI inst 64 := by
  apply BitVec.eq_of_getLsbD_eq
  intro i small
  interval_cases i <;>
    simp only [immI, int32, RiscV.immI, BitVec.getLsbD_signExtend, BitVec.getLsbD_sshiftRight,
      BitVec.msb_eq_getLsbD_last, BitVec.getLsbD_setWidth, BitVec.getLsbD_and,
      BitVec.getLsbD_extractLsb'] <;>
    simp

theorem immU_eq : immU (inst.setWidth 64) = RiscV.immU inst 64 := by
  apply BitVec.eq_of_getLsbD_eq
  intro i small
  interval_cases i <;>
    simp only [immU, int32, RiscV.immU, BitVec.getLsbD_signExtend, BitVec.getLsbD_append,
      BitVec.msb_eq_getLsbD_last, BitVec.getLsbD_setWidth, BitVec.getLsbD_and,
      BitVec.getLsbD_extractLsb'] <;>
    simp

theorem immB_eq : immB (inst.setWidth 64) = RiscV.immB inst 64 := by
  apply BitVec.eq_of_getLsbD_eq
  intro i small
  interval_cases i <;>
    simp only [immB, int32, RiscV.immB, BitVec.getLsbD_signExtend, BitVec.getLsbD_append,
      BitVec.getLsbD_sshiftRight, BitVec.msb_eq_getLsbD_last, BitVec.getLsbD_setWidth, BitVec.getLsbD_or,
      BitVec.getLsbD_and, BitVec.getLsbD_shiftLeft, BitVec.getLsbD_ushiftRight, BitVec.getLsbD_extractLsb'] <;>
    simp

theorem immJ_eq : immJ (inst.setWidth 64) = RiscV.immJ inst 64 := by
  apply BitVec.eq_of_getLsbD_eq
  intro i small
  interval_cases i <;>
    simp only [immJ, int32, RiscV.immJ, BitVec.getLsbD_signExtend, BitVec.getLsbD_append,
      BitVec.getLsbD_sshiftRight, BitVec.msb_eq_getLsbD_last, BitVec.getLsbD_setWidth, BitVec.getLsbD_or,
      BitVec.getLsbD_and, BitVec.getLsbD_ushiftRight, BitVec.getLsbD_extractLsb'] <;>
    simp

end Fields

namespace Cpu

variable {cpu : Cpu} {inst : BitVec 32}

/-- The registers as the next instruction reads them. -/
def visible (cpu : Cpu) : Reg → Word := (cpu.setReg 0 0).regs

theorem visible_setReg (cpu : Cpu) (rd : Reg) (value : Word) :
    (cpu.setReg rd value).visible = writeReg cpu.visible rd value := by
  funext r
  simp only [visible, setReg, writeReg, Function.update_apply]
  by_cases zero : r = 0
  · rw [if_pos zero, if_pos zero]
  · rw [if_neg zero, if_neg zero, if_neg zero]

theorem visible_clear (cpu : Cpu) : (cpu.setReg 0 0).visible = cpu.visible := by
  unfold visible setReg
  dsimp only
  rw [Function.update_idem]

theorem shamt_eq (b : Word) : (b &&& 0x3f).toNat = b.toNat % 64 := by
  rw [BitVec.toNat_and]
  exact Nat.and_two_pow_sub_one_eq_mod b.toNat 6

/-- The register-register instructions that `cpu_execute` knows. -/
def implements : RegOp → Bool
  | .mulh | .mulhsu | .mulhu | .div | .divu | .rem | .remu => false
  | _ => true

/-- The case 0x33. -/
theorem execOp_eq (op : RegOp) (funct3 : RiscV.funct3 inst = op.funct3)
    (funct7 : RiscV.funct7 inst = op.funct7) :
    (execOp (inst.setWidth 64)).run cpu =
      if implements op then
        .ok (.ok (), cpu.setReg (RiscV.rd inst)
          (op.result (cpu.regs (RiscV.rs1 inst)) (cpu.regs (RiscV.rs2 inst))))
      else .ok (.error .illegalInstruction, cpu) := by
  have f3 : funct3Of (inst.setWidth 64) = op.funct3.setWidth 64 := (funct3Of_eq inst).trans (by rw [funct3])
  have f7 : funct7Of (inst.setWidth 64) = op.funct7.setWidth 64 := (funct7Of_eq inst).trans (by rw [funct7])
  rw [← rdOf_eq, ← rs1Of_eq, ← rs2Of_eq]
  generalize a' : cpu.regs (rs1Of (inst.setWidth 64)) = a
  generalize b' : cpu.regs (rs2Of (inst.setWidth 64)) = b
  have readA : (reg (rs1Of (inst.setWidth 64))).run cpu = .ok (.ok a, cpu) := by
    rw [← a']
    rfl
  have readB : (reg (rs2Of (inst.setWidth 64))).run cpu = .ok (.ok b, cpu) := by
    rw [← b']
    rfl
  unfold execOp
  rw [Exec.run_bind_ok readA, Exec.run_bind_ok readB, f3, f7]
  cases op
  case add =>
    rw [RegOp.result_add]
    rfl
  case sub =>
    rw [RegOp.result_sub]
    rfl
  case sll =>
    have value : RegOp.sll.result a b = a <<< (b &&& 0x3f).toNat := by
      rw [RegOp.result, shamt_eq]
    rw [value]
    rfl
  case slt =>
    rw [RegOp.result_slt]
    rfl
  case sltu =>
    rw [RegOp.result_sltu]
    rfl
  case srl =>
    rw [RegOp.result_srl, ← shamt_eq]
    rfl
  case sra =>
    rw [RegOp.result_sra, ← shamt_eq]
    rfl
  case mul =>
    rw [RegOp.result_mul]
    rfl
  all_goals rfl

/-- The shift amount of the immediate. -/
theorem immI_shamt (inst : BitVec 32) : RiscV.immI inst 64 &&& 0x3f = (inst.extractLsb' 20 6).setWidth 64 := by
  apply BitVec.eq_of_getLsbD_eq
  intro i small
  interval_cases i <;>
    simp only [RiscV.immI, BitVec.getLsbD_signExtend, BitVec.getLsbD_setWidth, BitVec.getLsbD_and,
      BitVec.getLsbD_extractLsb'] <;>
    simp

/-- The upper bits of the shift amount, as the code takes them from `funct7`. -/
theorem funct6_eq (inst : BitVec 32) : ((RiscV.funct7 inst).setWidth 64) >>> 1 =
    (inst.extractLsb' 26 6).setWidth 64 := by
  apply BitVec.eq_of_getLsbD_eq
  intro i small
  interval_cases i <;>
    simp only [RiscV.funct7, BitVec.getLsbD_setWidth, BitVec.getLsbD_ushiftRight,
      BitVec.getLsbD_extractLsb'] <;>
    simp

/-- The two right shifts of the case 0x13. -/
theorem shiftRight_run {w a : Word} {shamt : Nat} (arithmetic : Bool)
    (found : (funct7Of w >>> 1).toNat = if arithmetic then 16 else 0) :
    (match (funct7Of w >>> 1).toNat with
      | 0x00 => writeRd w (a >>> shamt)
      | 0x10 => writeRd w (a.sshiftRight shamt)
      | _ => throw .illegalInstruction : Exec Cpu Unit).run cpu =
    .ok (.ok (), cpu.setReg (rdOf w) (if arithmetic then a.sshiftRight shamt else a >>> shamt)) := by
  rw [found]
  cases arithmetic <;> rfl

/-- The case 0x13. -/
theorem execOpImm_eq (op : ImmOp) (encodes : op.Encodes64 inst) : (execOpImm (inst.setWidth 64)).run cpu =
    .ok (.ok (), cpu.setReg (RiscV.rd inst) (op.result64 inst (cpu.regs (RiscV.rs1 inst)))) := by
  have f3 : funct3Of (inst.setWidth 64) = op.funct3.setWidth 64 :=
    (funct3Of_eq inst).trans (by rw [encodes.1])
  rw [← rdOf_eq, ← rs1Of_eq]
  generalize a' : cpu.regs (rs1Of (inst.setWidth 64)) = a
  have readA : (reg (rs1Of (inst.setWidth 64))).run cpu = .ok (.ok a, cpu) := by
    rw [← a']
    rfl
  unfold execOpImm
  rw [Exec.run_bind_ok readA, f3, immI_eq]
  have amount : (RiscV.immI inst 64 &&& 0x3f).toNat = ((inst.extractLsb' 20 6).setWidth 64).toNat % 64 := by
    have small := (inst.extractLsb' 20 6).isLt
    rw [immI_shamt, BitVec.toNat_setWidth]
    omega
  cases op
  case addi =>
    have value : ImmOp.addi.result64 inst a = a + RiscV.immI inst 64 := RegOp.result_add ..
    rw [value]
    rfl
  case slti =>
    have value : ImmOp.slti.result64 inst a = if a.slt (RiscV.immI inst 64) then 1 else 0 := RegOp.result_slt ..
    rw [value]
    rfl
  case sltiu =>
    have value : ImmOp.sltiu.result64 inst a = if a.ult (RiscV.immI inst 64) then 1 else 0 :=
      RegOp.result_sltu ..
    rw [value]
    rfl
  case slli =>
    have value : ImmOp.slli.result64 inst a = a <<< (RiscV.immI inst 64 &&& 0x3f).toNat := by
      rw [amount]
      rfl
    rw [value]
    rfl
  case srli =>
    have upper : (funct7Of (inst.setWidth 64) >>> 1).toNat = 0 := by
      rw [funct7Of_eq, funct6_eq, encodes.2 rfl]
      rfl
    have value : ImmOp.srli.result64 inst a = a >>> (RiscV.immI inst 64 &&& 0x3f).toNat := by
      rw [amount]
      exact RegOp.result_srl ..
    rw [value]
    exact shiftRight_run false upper
  case srai =>
    have upper : (funct7Of (inst.setWidth 64) >>> 1).toNat = 16 := by
      rw [funct7Of_eq, funct6_eq, encodes.2 rfl]
      rfl
    have value : ImmOp.srai.result64 inst a = a.sshiftRight (RiscV.immI inst 64 &&& 0x3f).toNat := by
      rw [amount]
      exact RegOp.result_sra ..
    rw [value]
    exact shiftRight_run true upper
  all_goals rfl

/-- The comparisons of the case 0x63. -/
theorem branchTaken_eq (op : BranchOp) (a b : Word) :
    branchTaken (op.funct3.setWidth 64).toNat a b = some (op.taken a b) := by
  cases op
  case beq => exact congrArg some (by simp [BranchOp.taken, BEq.beq])
  case bne => exact congrArg some (by simp [BranchOp.taken, bne, BEq.beq])
  all_goals rfl

/-- The case 0x63. -/
theorem execBranch_eq (op : BranchOp) (funct3 : RiscV.funct3 inst = op.funct3) :
    (execBranch (inst.setWidth 64)).run cpu =
      .ok (.ok (), if op.taken (cpu.regs (RiscV.rs1 inst)) (cpu.regs (RiscV.rs2 inst)) then
        { cpu with pc := cpu.pc + (RiscV.immB inst 64 - 4) } else cpu) := by
  rw [← rs1Of_eq, ← rs2Of_eq, ← immB_eq]
  have condition : branchTaken (funct3Of (inst.setWidth 64)).toNat (cpu.regs (rs1Of (inst.setWidth 64)))
      (cpu.regs (rs2Of (inst.setWidth 64))) =
        some (op.taken (cpu.regs (rs1Of (inst.setWidth 64))) (cpu.regs (rs2Of (inst.setWidth 64)))) := by
    rw [funct3Of_eq, funct3]
    exact branchTaken_eq op ..
  rw [execBranch, Exec.run_bind_ok (reg_run ..), Exec.run_bind_ok (reg_run ..), condition]
  cases taken : op.taken (cpu.regs (rs1Of (inst.setWidth 64))) (cpu.regs (rs2Of (inst.setWidth 64))) with
  | true => rw [if_pos rfl]; rfl
  | false => rw [if_neg (by decide)]; rfl

/-- The case 0x67. -/
theorem execJalr_eq : (execJalr (inst.setWidth 64)).run cpu =
    .ok (.ok (), { cpu with pc := (cpu.regs (RiscV.rs1 inst) + RiscV.immI inst 64) &&& ~~~1 }.setReg
      (RiscV.rd inst) cpu.pc) := by
  rw [← rdOf_eq, ← rs1Of_eq, ← immI_eq]
  rfl

/-- The case 0x6f. -/
theorem execJal_eq : (execJal (inst.setWidth 64)).run cpu =
    .ok (.ok (), { cpu.setReg (RiscV.rd inst) cpu.pc with pc := cpu.pc + (RiscV.immJ inst 64 - 4) }) := by
  rw [← rdOf_eq, ← immJ_eq]
  rfl

/-- The case 0x17. -/
theorem execAuipc_eq : (execAuipc (inst.setWidth 64)).run cpu =
    .ok (.ok (), cpu.setReg (RiscV.rd inst) (cpu.pc + RiscV.immU inst 64 - 4)) := by
  rw [← rdOf_eq, ← immU_eq]
  rfl

/-- The case 0x37. -/
theorem execLui_eq : (execLui (inst.setWidth 64)).run cpu =
    .ok (.ok (), cpu.setReg (RiscV.rd inst) (RiscV.immU inst 64)) := by
  rw [← rdOf_eq, ← immU_eq]
  rfl

/-- The opcode chooses the case. -/
theorem execute_group (cpu : Cpu) {group : BitVec 7} (opcode : RiscV.opcode inst = group) :
    (execute (inst.setWidth 64)).run cpu =
      (match (group.setWidth 64).toNat with
        | 0x03 => execLoad (inst.setWidth 64)
        | 0x0f => execFence (inst.setWidth 64)
        | 0x13 => execOpImm (inst.setWidth 64)
        | 0x17 => execAuipc (inst.setWidth 64)
        | 0x1b => execOpImm32 (inst.setWidth 64)
        | 0x23 => execStore (inst.setWidth 64)
        | 0x2f => execAmo (inst.setWidth 64)
        | 0x33 => execOp (inst.setWidth 64)
        | 0x37 => execLui (inst.setWidth 64)
        | 0x3b => execOp32 (inst.setWidth 64)
        | 0x63 => execBranch (inst.setWidth 64)
        | 0x67 => execJalr (inst.setWidth 64)
        | 0x6f => execJal (inst.setWidth 64)
        | 0x73 => execSystem (inst.setWidth 64)
        | _ => throw .illegalInstruction : Exec Cpu Unit).run (cpu.setReg 0 0) := by
  rw [← opcode, ← opcode_eq]
  rfl

/-- Whether `cpu_execute` knows the instruction. -/
def accepts : BaseOp → Bool
  | .register op => implements op
  | _ => true

/-- The processor `next` is as the specification has it after the instruction, which lies before the program
counter of `cpu`. -/
structure Follows (op : BaseOp) (inst : BitVec 32) (cpu next : Cpu) : Prop where
  registers : next.visible = op.registers64 inst (cpu.pc - 4) cpu.visible
  pc : next.pc = op.target64 inst (cpu.pc - 4) cpu.visible
  rest : next = { cpu with regs := next.regs, pc := next.pc }

/-- A register write is what it takes to follow an instruction that does not jump. -/
theorem Follows.of_setReg {op : BaseOp} {rd : Reg} {value : Word}
    (registers : op.registers64 inst (cpu.pc - 4) cpu.visible = writeReg cpu.visible rd value)
    (pc : op.target64 inst (cpu.pc - 4) cpu.visible = cpu.pc) :
    Follows op inst cpu ((cpu.setReg 0 0).setReg rd value) where
  registers := by rw [visible_setReg, visible_clear, registers]
  pc := pc.symm
  rest := rfl

/-- An instruction of the groups OP, OP-IMM, LUI, AUIPC, JAL, JALR and BRANCH leaves the registers and the
program counter of the specification, and is an illegal instruction where `cpu_execute` does not know it. -/
theorem execute_base (cpu : Cpu) {inst : BitVec 32} (op : BaseOp) (encodes : op.Encodes64 inst) :
    if accepts op then
      ∃ next, (execute (inst.setWidth 64)).run cpu = .ok (.ok (), next) ∧ Follows op inst cpu next
    else (execute (inst.setWidth 64)).run cpu = .ok (.error .illegalInstruction, cpu.setReg 0 0) := by
  have ahead : cpu.pc - 4 + 4 = cpu.pc := BitVec.sub_add_cancel ..
  have behind (offset : Word) : cpu.pc + (offset - 4) = cpu.pc - 4 + offset := by
    rw [BitVec.sub_eq_add_neg, BitVec.sub_eq_add_neg, BitVec.add_assoc, BitVec.add_comm offset]
  cases op with
  | register op =>
      obtain ⟨opcode, funct3, funct7⟩ := encodes
      have done := (execute_group cpu opcode).trans (execOp_eq op funct3 funct7)
      show if implements op then _ else _
      by_cases known : implements op
      · rw [if_pos known] at done ⊢
        exact ⟨_, done, .of_setReg rfl ahead⟩
      · rw [if_neg known] at done ⊢
        exact done
  | immediate op =>
      obtain ⟨opcode, encodes⟩ := encodes
      exact ⟨_, (execute_group cpu opcode).trans (execOpImm_eq op encodes), .of_setReg rfl ahead⟩
  | control op =>
      have group := execute_group cpu encodes.1
      cases op with
      | lui => exact ⟨_, group.trans execLui_eq, .of_setReg rfl ahead⟩
      | auipc =>
          refine ⟨_, group.trans execAuipc_eq, .of_setReg ?_ ahead⟩
          show writeReg _ _ (cpu.pc - 4 + RiscV.immU inst 64) = writeReg _ _ (cpu.pc + RiscV.immU inst 64 - 4)
          rw [← behind, BitVec.sub_eq_add_neg, BitVec.sub_eq_add_neg, BitVec.add_assoc]
      | jal =>
          refine ⟨_, group.trans execJal_eq, ?_, behind _, rfl⟩
          show ((cpu.setReg 0 0).setReg (RiscV.rd inst) cpu.pc).visible = writeReg _ _ (cpu.pc - 4 + 4)
          rw [visible_setReg, visible_clear, ahead]
      | jalr =>
          refine ⟨_, group.trans execJalr_eq, ?_, rfl, rfl⟩
          show ((cpu.setReg 0 0).setReg (RiscV.rd inst) cpu.pc).visible = writeReg _ _ (cpu.pc - 4 + 4)
          rw [visible_setReg, visible_clear, ahead]
      | branch op =>
          refine ⟨_, group.trans (execBranch_eq op encodes.2), ?_⟩
          have same : cpu.visible = writeReg cpu.visible 0 0 := by rw [← visible_setReg, visible_clear]
          by_cases taken : op.taken ((cpu.setReg 0 0).regs (RiscV.rs1 inst))
            ((cpu.setReg 0 0).regs (RiscV.rs2 inst))
          · rw [if_pos taken]
            exact ⟨(visible_clear cpu).trans same, (behind _).trans (if_pos taken).symm, rfl⟩
          · rw [if_neg taken]
            exact ⟨(visible_clear cpu).trans same, ahead.symm.trans (if_neg taken).symm, rfl⟩

/-- `jalr x1, -4(x1)` behind its own address. -/
theorem execute_base_jalr : ∃ next, (execute ((0xffc080e7 : BitVec 32).setWidth 64)).run
      { new [] #[] with pc := RAM_BASE + 4 } = .ok (.ok (), next) ∧
    Follows (.control .jalr) 0xffc080e7 { new [] #[] with pc := RAM_BASE + 4 } next :=
  execute_base { new [] #[] with pc := RAM_BASE + 4 } (.control .jalr) ⟨by decide, by decide⟩

end Cpu

end Riscv2os.Semu
