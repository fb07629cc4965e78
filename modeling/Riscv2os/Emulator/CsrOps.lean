import Riscv2os.Emulator.ControlFlow
import Riscv2os.Std.Loops

/-!
# The CSR instructions of the emulator

Each of the six reads the old value into `rd`. The new value is the specified one but for
`CSRRC`, for which `rv_system` calls `csrrs`.
-/

namespace Riscv2os.Emulator

open Riscv2os.Std
open RiscV (Reg CsrOp writeReg)

theorem reg_decCsr (inst : BitVec 32) : (rvDecode inst).csrId.setWidth 12 = RiscV.csr inst := by
  have field : (rvDecode inst).csrId = (RiscV.csr inst).setWidth 32 :=
    field_eq inst (by decide) (by decide)
  simp [field]

theorem decRs1_eq (inst : BitVec 32) : (rvDecode inst).rs1 = (RiscV.rs1 inst).setWidth 32 :=
  field_eq inst (by decide) (by decide)

theorem decRs1_eq_zero (inst : BitVec 32) : (rvDecode inst).rs1 = 0 ↔ RiscV.rs1 inst = 0 := by
  rw [decRs1_eq]
  constructor
  · intro zero
    have := congrArg (BitVec.setWidth 5) zero
    simpa using this
  · intro zero
    rw [zero]
    rfl

namespace Machine

variable {m : Machine} {op : CsrOp} {inst : BitVec 32}

/-- `x0` is zero after every step. -/
theorem rvStep_x0 {m' : Machine} (ran : m.rvStep = .ok m') : m'.x 0 = 0 := by
  obtain ⟨inst, _, ran⟩ := bind_ok.mp ran
  obtain ⟨middle, _, ran⟩ := bind_ok.mp ran
  obtain rfl := Except.ok.inj ran
  show Function.update middle.x (reg 0) 0 (reg 0) = 0
  exact Function.update_self ..

/-- What `rv_system` stores in the CSR. -/
def csrStored (op : CsrOp) (inst old : BitVec 32) (x : Reg → BitVec 32) : BitVec 32 :=
  if op = .csrrc then old ||| (if RiscV.rs1 inst = 0 then ~~~0 else x (RiscV.rs1 inst))
  else op.update old (op.operand inst x)

/-- The machine with the CSR stored. -/
def withCsr (m : Machine) (op : CsrOp) (inst : BitVec 32) : Machine :=
  { m with csr :=
      Function.update m.csr (RiscV.csr inst) (csrStored op inst (m.csr (RiscV.csr inst)) m.x) }

/-- Every CSR instruction stores something in its CSR, and the old value in `rd`. -/
theorem rvSystem_eq (hardwired : m.x 0 = 0) (funct3 : RiscV.funct3 inst = op.funct3) :
    m.rvSystem (rvDecode inst) = .ok
      (((m.withCsr op inst).set (rvDecode inst).rd
        (if (rvDecode inst).rd ≠ 0 then m.csr (RiscV.csr inst)
          else (m.withCsr op inst).get (rvDecode inst).rd)).next) := by
  have selected : (rvDecode inst).funct3 = op.funct3.setWidth 32 := by
    rw [← funct3, ← decFunct3_eq]
    rfl
  have source : (if (rvDecode inst).rs1 = 0 then 0 else m.get (rvDecode inst).rs1) =
      m.x (RiscV.rs1 inst) := by
    rw [get_rs1]
    split
    · next zero => rw [(decRs1_eq_zero inst).mp zero, hardwired]
    · rfl
  have mask : (if (rvDecode inst).rs1 = 0 then ~~~0 else m.get (rvDecode inst).rs1) =
      if RiscV.rs1 inst = 0 then ~~~0 else m.x (RiscV.rs1 inst) := by
    simp only [decRs1_eq_zero, get_rs1]
  unfold rvSystem
  rw [selected, source, mask, get_rs1]
  simp only [csrrw, csrrs, csrrc, csrUpdate, reg_decCsr, withCsr]
  rw [decRs1_eq]
  cases op <;> rfl

/-- The register that the CSR is read into. -/
theorem set_oldCsr (old : BitVec 32) :
    ((m.set (rvDecode inst).rd
      (if (rvDecode inst).rd ≠ 0 then old else m.get (rvDecode inst).rd)).next.set 0 0) =
      { m with x := writeReg m.x (RiscV.rd inst) old, pc := m.pc + 4 } := by
  rw [set_zero, show reg (rvDecode inst).rd = RiscV.rd inst from reg_decRd inst]
  congr 1
  rw [RiscV.writeReg_congr]
  by_cases zero : (rvDecode inst).rd = 0
  · refine .inl ?_
    rw [← reg_decRd, show decRd inst = 0 from zero]
    rfl
  · exact .inr (if_pos zero)

/-- What `csrrs` leaves is what `CSRRC` is to leave only when all bits stay set, or none is in
the operand. -/
theorem or_eq_and_not (old operand : BitVec 32) : old ||| operand = old &&& ~~~operand ↔ operand = 0 := by
  constructor
  · intro same
    apply BitVec.eq_of_getLsbD_eq
    intro i small
    have bit := congrArg (BitVec.getLsbD · i) same
    simp only [BitVec.getLsbD_or, BitVec.getLsbD_and, BitVec.getLsbD_not, small, decide_true,
      Bool.true_and] at bit
    cases set_ : operand.getLsbD i with
    | false => simp
    | true => simp [set_] at bit
  · rintro rfl
    have left : old ||| (0 : BitVec 32) = old := BitVec.or_zero
    have right : old &&& ~~~(0 : BitVec 32) = old := BitVec.and_allOnes
    rw [left, right]

theorem csrStored_eq_iff (hardwired : m.x 0 = 0) (old : BitVec 32) :
    csrStored op inst old m.x = op.update old (op.operand inst m.x) ↔
      (op = .csrrc → if RiscV.rs1 inst = 0 then old = ~~~0 else m.x (RiscV.rs1 inst) = 0) := by
  unfold csrStored
  by_cases clears : op = .csrrc
  · subst clears
    simp only [if_true, true_implies]
    show _ = old &&& ~~~m.x (RiscV.rs1 inst) ↔ _
    split
    · next zero =>
      rw [zero, hardwired]
      have ones : old ||| ~~~(0 : BitVec 32) = ~~~0 := BitVec.or_allOnes
      have same : old &&& ~~~(0 : BitVec 32) = old := BitVec.and_allOnes
      rw [ones, same]
      exact eq_comm
    · exact or_eq_and_not ..
  · simp [clears]

/-- One step of the emulator carries out each CSR instruction but `CSRRC`, and this one only where
there is nothing to clear or everything stays set. -/
theorem rvStep_csrOp_iff (fetched : m.memory.readW m.pc = .ok inst) (hardwired : m.x 0 = 0)
    (opcode : RiscV.opcode inst = RiscV.SYSTEM) (funct3 : RiscV.funct3 inst = op.funct3) :
    m.rvStep = .ok { m with
        x := writeReg m.x (RiscV.rd inst) (m.csr (RiscV.csr inst))
        csr := Function.update m.csr (RiscV.csr inst)
          (op.update (m.csr (RiscV.csr inst)) (op.operand inst m.x))
        pc := m.pc + 4 } ↔
      (op = .csrrc → if RiscV.rs1 inst = 0 then m.csr (RiscV.csr inst) = ~~~0
        else m.x (RiscV.rs1 inst) = 0) := by
  have selected : (rvDecode inst).op.toNat = 0b11100 := @rvDecode_op_of inst 0b1110011 opcode
  have executed : m.execute (rvDecode inst) = m.rvSystem (rvDecode inst) := by
    rw [execute, selected]
    rfl
  rw [rvStep_of_fetched fetched, executed, rvSystem_eq hardwired funct3]
  show Except.ok (Machine.set _ 0 0) = _ ↔ _
  rw [set_oldCsr, Except.ok.injEq, Machine.mk.injEq, ← csrStored_eq_iff hardwired]
  simp only [withCsr, and_true, true_and]
  constructor
  · intro same
    simpa using congrFun same (RiscV.csr inst)
  · intro same
    rw [same]

/-- The machine at address 0 with one instruction, and one value in all CSRs. -/
def oneWordCsr (inst : BitVec 32) (x : Reg → BitVec 32) (value : BitVec 32) : Machine :=
  { oneWord inst x with csr := fun _ => value }

/-- `CSRRCI x1, mstatus, 1` clears a bit. -/
theorem rvStep_csrOp_clears :
    ((oneWordCsr 0x3000F0F3 (fun _ => 0) 3).rvStep).map (fun m => (m.x 1, m.csr 0x300)) =
      .ok (3, 2) := by
  have fetched : (oneWordCsr 0x3000F0F3 (fun _ => 0) 3).memory.readW 0 = .ok 0x3000F0F3 := rfl
  rw [(@rvStep_csrOp_iff _ .csrrci _ fetched rfl (by decide) (by decide)).mpr (by decide)]
  rfl

/-- `CSRRC x1, mstatus, x2` sets the bits that it is to clear. -/
theorem rvStep_csrOp_wrong :
    RiscV.opcode 0x300130F3 = RiscV.SYSTEM ∧ RiscV.funct3 0x300130F3 = CsrOp.csrrc.funct3 ∧
      CsrOp.csrrc.update (3 : BitVec 32) 1 = 2 ∧
      ((oneWordCsr 0x300130F3 (fun r => if r = 2 then 1 else 0) 3).rvStep).map
        (fun m => (m.x 1, m.csr 0x300)) = .ok (3, 3) :=
  ⟨by decide, by decide, rfl, rfl⟩

end Machine

end Riscv2os.Emulator
