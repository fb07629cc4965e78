import Riscv2os.Emulator.RegisterOps

/-!
# The control-flow and upper-immediate instructions of the emulator

The decoder puts the scattered immediates together by shifts of masked fields and one
arithmetic shift, which gives the specified permutations with the sign extended. The jumps
read `rs1` before they write `rd`.
-/

namespace Riscv2os.Emulator

open Riscv2os.Std
open RiscV (Reg BranchOp ControlOp writeReg)

section Immediates

variable (inst : BitVec 32)

theorem rvDecode_bImm : (rvDecode inst).bImm = RiscV.immB inst 32 := by
  apply BitVec.eq_of_getLsbD_eq
  intro i small
  interval_cases i <;>
    simp only [rvDecode, decBtypeImm, RiscV.immB, FB_IMM_12, FB_IMM_11, FB_IMM_10_5, FB_IMM_4_1,
      BitVec.getLsbD_signExtend, BitVec.getLsbD_append, BitVec.getLsbD_sshiftRight,
      BitVec.msb_eq_getLsbD_last, BitVec.getLsbD_or, BitVec.getLsbD_and, BitVec.getLsbD_shiftLeft,
      BitVec.getLsbD_ushiftRight, BitVec.getLsbD_extractLsb', BitVec.getLsbD_ofNat] <;>
    simp

theorem rvDecode_jImm : (rvDecode inst).jImm = RiscV.immJ inst 32 := by
  apply BitVec.eq_of_getLsbD_eq
  intro i small
  interval_cases i <;>
    simp only [rvDecode, decJtypeImm, RiscV.immJ, FJ_IMM_20, FJ_IMM_19_12, FJ_IMM_11, FJ_IMM_10_1,
      BitVec.getLsbD_signExtend, BitVec.getLsbD_append, BitVec.getLsbD_sshiftRight,
      BitVec.msb_eq_getLsbD_last, BitVec.getLsbD_or, BitVec.getLsbD_and, BitVec.getLsbD_shiftLeft,
      BitVec.getLsbD_ushiftRight, BitVec.getLsbD_extractLsb', BitVec.getLsbD_ofNat] <;>
    simp

theorem rvDecode_sImm : (rvDecode inst).sImm = RiscV.immS inst 32 := by
  apply BitVec.eq_of_getLsbD_eq
  intro i small
  interval_cases i <;>
    simp only [rvDecode, decStypeImm, RiscV.immS, FS_IMM_11_5, FS_IMM_4_0,
      BitVec.getLsbD_signExtend, BitVec.getLsbD_append, BitVec.getLsbD_sshiftRight,
      BitVec.msb_eq_getLsbD_last, BitVec.getLsbD_or, BitVec.getLsbD_and, BitVec.getLsbD_shiftLeft,
      BitVec.getLsbD_extractLsb'] <;>
    simp

theorem rvDecode_uImm : (rvDecode inst).uImm = RiscV.immU inst 32 := by
  apply BitVec.eq_of_getLsbD_eq
  intro i small
  interval_cases i <;>
    simp only [rvDecode, decUtypeImm, RiscV.immU, FU_IMM_31_12, BitVec.getLsbD_signExtend,
      BitVec.getLsbD_append, BitVec.msb_eq_getLsbD_last, BitVec.getLsbD_and,
      BitVec.getLsbD_extractLsb', BitVec.getLsbD_ofNat] <;>
    simp

end Immediates

namespace Machine

variable {m : Machine} {inst : BitVec 32}

/-- What the `switch` of `rv_step` sees of a word of a known opcode. -/
theorem rvDecode_op_of {opcode : BitVec 7} (found : RiscV.opcode inst = opcode) :
    (rvDecode inst).op.toNat = ((opcode.extractLsb' 2 5).setWidth 32).toNat := by
  rw [rvDecode_op, found]

theorem get_rs1 : m.get (rvDecode inst).rs1 = m.x (RiscV.rs1 inst) := congrArg m.x (reg_decRs1 inst)

theorem get_rs2 : m.get (rvDecode inst).rs2 = m.x (RiscV.rs2 inst) := congrArg m.x (reg_decRs2 inst)

/-- Once a word is fetched, a step is the execution of what it decodes to. -/
theorem rvStep_of_fetched (fetched : m.memory.readW m.pc = .ok inst) :
    m.rvStep = (m.execute (rvDecode inst)).map fun m => m.set 0 0 := by
  rw [rvStep, fetched]
  show ((m.execute (rvDecode inst)).bind fun m => .ok (m.set 0 0)) = _
  cases m.execute (rvDecode inst) <;> rfl

/-- The store of a register and `x[0] = 0` together. -/
theorem set_set_zero (n value : BitVec 32) :
    (m.set n value).set 0 0 = { m with x := writeReg m.x (reg n) value } := by
  have registers := congrArg Machine.x (set_zero m n value)
  exact congrArg (Machine.mk · m.csr m.pc m.memory) registers

theorem set_zero_only : m.set 0 0 = { m with x := writeReg m.x 0 0 } := by
  have twice := set_set_zero (m := m) 0 0
  have same : (m.set 0 0).set 0 0 = m.set 0 0 := by simp only [set, Function.update_idem]
  rw [← same, twice]
  rfl

/-- The comparisons of `rv_branch` select the specified branches. -/
theorem rvBranch_eq (op : BranchOp) (funct3 : RiscV.funct3 inst = op.funct3) :
    m.rvBranch (rvDecode inst) = .ok
      (if op.taken (m.x (RiscV.rs1 inst)) (m.x (RiscV.rs2 inst)) then
        { m with pc := m.pc + RiscV.immB inst 32 } else m.next) := by
  have selected : (rvDecode inst).funct3 = op.funct3.setWidth 32 := by
    rw [← funct3, ← decFunct3_eq]
    rfl
  unfold rvBranch
  rw [selected, get_rs1, get_rs2, rvDecode_bImm]
  generalize m.x (RiscV.rs1 inst) = a
  generalize m.x (RiscV.rs2 inst) = b
  cases op
  case beq =>
    have same : (a == b) = BranchOp.beq.taken a b := by simp [BranchOp.taken, BEq.beq]
    rw [← same]
    rfl
  case bne =>
    have same : (a != b) = BranchOp.bne.taken a b := by simp [BranchOp.taken, bne, BEq.beq]
    rw [← same]
    rfl
  case blt => rfl
  case bge =>
    have same : (!a.slt b) = BranchOp.bge.taken a b := by
      simp [BranchOp.taken, BitVec.slt, ← decide_not]
    rw [← same]
    rfl
  case bltu => rfl
  case bgeu =>
    have same : (!a.ult b) = BranchOp.bgeu.taken a b := by
      simp [BranchOp.taken, BitVec.ult, ← decide_not]
    rw [← same]
    rfl

/-- One step of the emulator carries out each upper-immediate and control-flow instruction of
RV32I. -/
theorem rvStep_controlOp (m : Machine) (op : ControlOp) {inst : BitVec 32}
    (fetched : m.memory.readW m.pc = .ok inst) (encodes : op.Encodes inst) :
    m.rvStep = .ok { m with
      x := op.registers inst m.pc m.x
      pc := op.target inst m.pc m.x } := by
  obtain ⟨opcode, function⟩ := encodes
  rw [rvStep_of_fetched fetched, execute]
  cases op with
  | lui =>
      have selected : (rvDecode inst).op.toNat = 0b01101 := @rvDecode_op_of inst (0b0110111) opcode
      rw [selected]
      show Except.ok ((m.set (rvDecode inst).rd (rvDecode inst).uImm).next.set 0 0) = _
      rw [set_zero, rvDecode_uImm]
      exact congrArg Except.ok (congrArg (Machine.mk · _ _ _)
        (congrArg (writeReg m.x · _) (reg_decRd inst)))
  | auipc =>
      have selected : (rvDecode inst).op.toNat = 0b00101 := @rvDecode_op_of inst (0b0010111) opcode
      rw [selected]
      show Except.ok ((m.set (rvDecode inst).rd ((rvDecode inst).uImm + m.pc)).next.set 0 0) = _
      rw [set_zero, rvDecode_uImm, BitVec.add_comm]
      exact congrArg Except.ok (congrArg (Machine.mk · _ _ _)
        (congrArg (writeReg m.x · _) (reg_decRd inst)))
  | jal =>
      have selected : (rvDecode inst).op.toNat = 0b11011 := @rvDecode_op_of inst (0b1101111) opcode
      rw [selected]
      show Except.ok (({ m with pc := m.pc + (rvDecode inst).jImm }.set (rvDecode inst).rd
        (m.pc + 4)).set 0 0) = _
      rw [set_set_zero, rvDecode_jImm]
      exact congrArg Except.ok (congrArg (Machine.mk · _ _ _)
        (congrArg (writeReg m.x · _) (reg_decRd inst)))
  | jalr =>
      have selected : (rvDecode inst).op.toNat = 0b11001 := @rvDecode_op_of inst (0b1100111) opcode
      rw [selected]
      show Except.ok (({ m with
        pc := (m.get (rvDecode inst).rs1 + (rvDecode inst).iImm) &&& ~~~1 }.set (rvDecode inst).rd
        (m.pc + 4)).set 0 0) = _
      rw [set_set_zero, rvDecode_iImm, get_rs1]
      exact congrArg Except.ok (congrArg (Machine.mk · _ _ _)
        (congrArg (writeReg m.x · _) (reg_decRd inst)))
  | branch op =>
      have selected : (rvDecode inst).op.toNat = 0b11000 := @rvDecode_op_of inst (0b1100011) opcode
      rw [selected]
      show (m.rvBranch (rvDecode inst)).map (fun m => m.set 0 0) = _
      rw [rvBranch_eq op function]
      show Except.ok (Machine.set _ 0 0) = _
      rw [set_zero_only]
      simp only [ControlOp.target, ControlOp.registers]
      split <;> rfl

/-- `JALR x1, x1, 3` jumps by the old value of `x1`, with bit 0 cleared. -/
theorem rvStep_controlOp_sameRegister :
    ((oneWord 0x003080E7 fun r => if r = 1 then 0x100 else 0).rvStep).map (fun m => (m.x 1, m.pc)) =
      .ok (4, 0x102) := by
  have fetched : (oneWord 0x003080E7 fun r => if r = 1 then 0x100 else 0).memory.readW 0 =
    .ok 0x003080E7 := rfl
  rw [rvStep_controlOp _ .jalr fetched (by decide)]
  rfl

end Machine

end Riscv2os.Emulator
