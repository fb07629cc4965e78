import Riscv2os.Emulator.Step

/-!
# The register-register instructions of the emulator

The decoder takes the fields of a word apart as the manual numbers them. With that, `rv_op`
computes the specified result for each instruction of the opcode OP, and no division
reaches the host that would trap there.
-/

namespace Riscv2os.Emulator

open Riscv2os.Std
open RiscV (Reg RegOp writeReg)

section Fields

variable (inst : BitVec 32)

/-- A mask with `len` ones from bit `lo` on selects a field. -/
theorem field_eq {mask : BitVec 32} {lo len : Nat} (ones : mask = BitVec.ofNat 32 ((2 ^ len - 1) * 2 ^ lo))
    (inside : lo + len ≤ 32) :
    (inst &&& mask) >>> lo = (inst.extractLsb' lo len).setWidth 32 := by
  apply BitVec.eq_of_getLsbD_eq
  intro i small
  simp only [ones, BitVec.getLsbD_ushiftRight, BitVec.getLsbD_and, BitVec.getLsbD_ofNat,
    BitVec.getLsbD_setWidth, BitVec.getLsbD_extractLsb', Nat.testBit_mul_two_pow,
    Nat.testBit_two_pow_sub_one]
  by_cases low : i < len
  · have : lo + i < 32 := by omega
    simp [low, small, this]
  · simp [low]

theorem decFunct3_eq : decFunct3 inst = (RiscV.funct3 inst).setWidth 32 :=
  field_eq inst (by decide) (by decide)

theorem decFunct7_eq : decFunct7 inst = (RiscV.funct7 inst).setWidth 32 :=
  field_eq inst (by decide) (by decide)

theorem reg_decRd : reg (decRd inst) = RiscV.rd inst := by
  have field : decRd inst = (RiscV.rd inst).setWidth 32 := field_eq inst (by decide) (by decide)
  simp [reg, field]

theorem reg_decRs1 : reg (decRs1 inst) = RiscV.rs1 inst := by
  have field : decRs1 inst = (RiscV.rs1 inst).setWidth 32 := field_eq inst (by decide) (by decide)
  simp [reg, field]

theorem reg_decRs2 : reg (decRs2 inst) = RiscV.rs2 inst := by
  have field : decRs2 inst = (RiscV.rs2 inst).setWidth 32 := field_eq inst (by decide) (by decide)
  simp [reg, field]

/-- The `switch` of `rv_step` sees the opcode without its two low bits. -/
theorem rvDecode_op : (rvDecode inst).op = ((RiscV.opcode inst).extractLsb' 2 5).setWidth 32 := by
  have field : (rvDecode inst).op = (inst.extractLsb' 2 5).setWidth 32 :=
    field_eq inst (by decide) (by decide)
  have nested : (RiscV.opcode inst).extractLsb' 2 5 = inst.extractLsb' 2 5 := by
    apply BitVec.eq_of_getLsbD_eq
    intro i small
    simp [RiscV.opcode]
  rw [field, nested]

theorem rvDecode_iImm : (rvDecode inst).iImm = RiscV.immI inst 32 := by
  have mask : FI_IMM_11_0 = BitVec.ofNat 32 ((2 ^ 12 - 1) * 2 ^ 20) := by decide
  apply BitVec.eq_of_getLsbD_eq
  intro i small
  simp only [rvDecode, decItypeImm, RiscV.immI, mask, BitVec.getLsbD_sshiftRight, BitVec.getLsbD_and,
    BitVec.getLsbD_ofNat, BitVec.getLsbD_signExtend, BitVec.getLsbD_extractLsb', BitVec.msb_eq_getLsbD_last,
    Nat.testBit_mul_two_pow, Nat.testBit_two_pow_sub_one]
  by_cases low : i < 12
  · have : 20 + i < 32 := by omega
    simp [small, low, this, Nat.not_le.mpr small]
  · have : inst[31] = true → 32 ≤ 20 + i := fun _ => by omega
    simpa [small, low, Nat.not_le.mpr small] using this

end Fields

namespace Machine

section Results

variable (a b : BitVec 32)

theorem shiftAmount : (b &&& 0x1f).toNat = b.toNat % 32 := by
  rw [BitVec.toNat_and]
  exact Nat.and_two_pow_sub_one_eq_mod b.toNat 5

theorem ofBool_lt {p : Prop} [Decidable p] : ofBool (decide p) = if p then 1 else 0 := by
  by_cases p <;> simp [ofBool, *]

theorem sra_eq (n : Nat) : a.sshiftRight n = BitVec.ofInt 32 (a.toInt / 2 ^ n) := by
  rw [← BitVec.ofInt_toInt (x := a.sshiftRight n)]
  rw [BitVec.toInt_sshiftRight, Int.shiftRight_eq_div_pow]
  norm_cast

theorem srl_eq (n : Nat) : a >>> n = BitVec.ofNat 32 (a.toNat / 2 ^ n) := by
  apply BitVec.eq_of_toNat_eq
  have small : a.toNat / 2 ^ n < 2 ^ 32 := (Nat.div_le_self ..).trans_lt a.isLt
  rw [BitVec.toNat_ushiftRight, Nat.shiftRight_eq_div_pow, BitVec.toNat_ofNat, Nat.mod_eq_of_lt small]

/-- The upper half of a 64-bit product. -/
theorem highHalf (z : Int) :
    ((BitVec.ofInt 64 z) >>> 32).setWidth 32 = BitVec.ofInt 32 (z / 2 ^ 32) := by
  apply BitVec.eq_of_toNat_eq
  rw [BitVec.toNat_setWidth, BitVec.toNat_ushiftRight, Nat.shiftRight_eq_div_pow, BitVec.toNat_ofInt,
    BitVec.toNat_ofInt]
  omega

theorem unsigned64 : a.setWidth 64 = BitVec.ofInt 64 a.toNat := by
  apply BitVec.eq_of_toNat_eq
  rw [BitVec.toNat_setWidth, BitVec.toNat_ofInt]
  omega

theorem sdiv_eq : a.sdiv b = BitVec.ofInt 32 (a.toInt.tdiv b.toInt) := by
  apply BitVec.eq_of_toInt_eq
  rw [BitVec.toInt_sdiv, BitVec.toInt_ofInt]

theorem srem_eq : a.srem b = BitVec.ofInt 32 (a.toInt.tmod b.toInt) := by
  rw [← BitVec.ofInt_toInt (x := a.srem b), BitVec.toInt_srem]

end Results

/-- The signed divisions are guarded against both cases that trap. -/
theorem hostDiv_eq {a b : BitVec 32} (divisor : b ≠ 0) (fits : ¬ (b = -1 ∧ a = 0x80000000)) :
    hostDiv a b = .ok (BitVec.ofInt 32 (a.toInt.tdiv b.toInt)) := by
  rw [hostDiv, if_neg (by tauto), sdiv_eq]

theorem hostRem_eq {a b : BitVec 32} (divisor : b ≠ 0) (fits : ¬ (b = -1 ∧ a = 0x80000000)) :
    hostRem a b = .ok (BitVec.ofInt 32 (a.toInt.tmod b.toInt)) := by
  rw [hostRem, if_neg (by tauto), srem_eq]

/-- The case `rv32m` computes what is specified, in every case without a trap. -/
theorem rvOpM_eq (op : RegOp) (isM : op.funct7 = 1) (funct7 a b : BitVec 32) :
    rvOpM (op.funct3.setWidth 32) funct7 a b = .ok (op.result a b) := by
  cases op <;> first | exact absurd isM (by decide) | skip
  case mul =>
    show Except.ok (a * b) = .ok (BitVec.ofInt 32 (a.toInt * b.toInt))
    rw [BitVec.ofInt_mul, BitVec.ofInt_toInt, BitVec.ofInt_toInt]
  case mulh =>
    show Except.ok (((BitVec.ofInt 64 a.toInt * BitVec.ofInt 64 b.toInt) >>> 32).setWidth 32) =
      .ok (BitVec.ofInt 32 (a.toInt * b.toInt / 2 ^ 32))
    rw [← BitVec.ofInt_mul, highHalf]
  case mulhsu =>
    show Except.ok (((BitVec.ofInt 64 a.toInt * b.setWidth 64) >>> 32).setWidth 32) =
      .ok (BitVec.ofInt 32 (a.toInt * b.toNat / 2 ^ 32))
    rw [unsigned64, ← BitVec.ofInt_mul, highHalf]
  case mulhu =>
    show Except.ok (((a.setWidth 64 * b.setWidth 64) >>> 32).setWidth 32) =
      .ok (BitVec.ofNat 32 (a.toNat * b.toNat / 2 ^ 32))
    rw [unsigned64, unsigned64, ← BitVec.ofInt_mul, highHalf]
    norm_cast
  case div =>
    show (if b = 0 then _ else if b = -1 ∧ a = 0x80000000 then _ else hostDiv a b) =
      Except.ok (if b = 0 then _ else BitVec.ofInt 32 (a.toInt.tdiv b.toInt))
    by_cases zero : b = 0
    · rw [if_pos zero, if_pos zero]
      rfl
    rw [if_neg zero, if_neg zero]
    by_cases overflow : b = -1 ∧ a = 0x80000000
    · obtain ⟨rfl, rfl⟩ := overflow
      rfl
    · rw [if_neg overflow, hostDiv_eq zero overflow]
  case divu =>
    show (if b = 0 then _ else hostDivU a b) =
      Except.ok (if b = 0 then _ else BitVec.ofNat 32 (a.toNat / b.toNat))
    by_cases zero : b = 0
    · rw [if_pos zero, if_pos zero]
      rfl
    rw [if_neg zero, if_neg zero, hostDivU, if_neg zero]
    congr 1
    apply BitVec.eq_of_toNat_eq
    have small : a.toNat / b.toNat < 2 ^ 32 := (Nat.div_le_self ..).trans_lt a.isLt
    rw [BitVec.toNat_udiv, BitVec.toNat_ofNat, Nat.mod_eq_of_lt small]
  case rem =>
    show (if b = 0 then _ else if b = -1 ∧ a = 0x80000000 then _ else hostRem a b) =
      Except.ok (if b = 0 then _ else BitVec.ofInt 32 (a.toInt.tmod b.toInt))
    by_cases zero : b = 0
    · rw [if_pos zero, if_pos zero]
    rw [if_neg zero, if_neg zero]
    by_cases overflow : b = -1 ∧ a = 0x80000000
    · obtain ⟨rfl, rfl⟩ := overflow
      rfl
    · rw [if_neg overflow, hostRem_eq zero overflow]
  case remu =>
    show (if b = 0 then _ else hostRemU a b) =
      Except.ok (if b = 0 then _ else BitVec.ofNat 32 (a.toNat % b.toNat))
    by_cases zero : b = 0
    · rw [if_pos zero, if_pos zero]
    rw [if_neg zero, if_neg zero, hostRemU, if_neg zero]
    congr 1
    apply BitVec.eq_of_toNat_eq
    have small : a.toNat % b.toNat < 2 ^ 32 := (Nat.mod_le ..).trans_lt a.isLt
    rw [BitVec.toNat_umod, BitVec.toNat_ofNat, Nat.mod_eq_of_lt small]

/-- `rv_op` computes what is specified. -/
theorem rvOpValue_eq (op : RegOp) (a b : BitVec 32) :
    rvOpValue (op.funct3.setWidth 32) (op.funct7.setWidth 32) a b = .ok (op.result a b) := by
  by_cases isM : op.funct7 = 1
  · rw [← rvOpM_eq op isM (op.funct7.setWidth 32), isM]
    rfl
  cases op <;> first | exact absurd rfl isM | skip
  case add =>
    show Except.ok (a + b) = .ok (BitVec.ofInt 32 (a.toInt + b.toInt))
    rw [BitVec.ofInt_add, BitVec.ofInt_toInt, BitVec.ofInt_toInt]
  case sub =>
    show Except.ok (a - b) = .ok (BitVec.ofInt 32 (a.toInt - b.toInt))
    rw [Int.sub_eq_add_neg, BitVec.ofInt_add, BitVec.ofInt_neg, BitVec.ofInt_toInt, BitVec.ofInt_toInt,
      BitVec.sub_eq_add_neg]
  case sll =>
    show Except.ok (a <<< (b &&& 0x1f).toNat) = .ok (a <<< (b.toNat % 32))
    rw [shiftAmount]
  case slt => exact congrArg Except.ok ofBool_lt
  case sltu => exact congrArg Except.ok ofBool_lt
  case xor => rfl
  case srl =>
    show Except.ok (a >>> (b &&& 0x1f).toNat) = .ok (BitVec.ofNat 32 (a.toNat / 2 ^ (b.toNat % 32)))
    rw [shiftAmount, srl_eq]
  case sra =>
    show Except.ok (a.sshiftRight (b &&& 0x1f).toNat) =
      .ok (BitVec.ofInt 32 (a.toInt / 2 ^ (b.toNat % 32)))
    rw [shiftAmount, sra_eq]
  case or => rfl
  case and => rfl

/-- The end of `rv_step` makes any store to a register one that leaves `x0`. -/
theorem set_zero (m : Machine) (n value : BitVec 32) :
    ((m.set n value).next.set 0 0) =
      { m with x := writeReg m.x (reg n) value, pc := m.pc + 4 } := by
  unfold set next writeReg
  congr 1
  funext r
  by_cases zero : r = 0
  · subst zero
    exact Function.update_self ..
  · rw [Function.update_of_ne (by exact zero), if_neg zero]
    exact Function.update_apply ..

/-- One step of the emulator carries out each register-register instruction of RV32IM. -/
theorem rvStep_regOp (m : Machine) (op : RegOp) {inst : BitVec 32}
    (fetched : m.memory.readW m.pc = .ok inst) (opcode : RiscV.opcode inst = RiscV.OP)
    (funct3 : RiscV.funct3 inst = op.funct3) (funct7 : RiscV.funct7 inst = op.funct7) :
    m.rvStep = .ok { m with
      x := writeReg m.x (RiscV.rd inst) (op.result (m.x (RiscV.rs1 inst)) (m.x (RiscV.rs2 inst)))
      pc := m.pc + 4 } := by
  have selected : (rvDecode inst).op.toNat = 0b01100 := by
    rw [rvDecode_op, opcode]
    rfl
  have a : m.get (rvDecode inst).rs1 = m.x (RiscV.rs1 inst) := congrArg m.x (reg_decRs1 inst)
  have b : m.get (rvDecode inst).rs2 = m.x (RiscV.rs2 inst) := congrArg m.x (reg_decRs2 inst)
  have value : rvOpValue (rvDecode inst).funct3 (rvDecode inst).funct7 (m.x (RiscV.rs1 inst))
      (m.x (RiscV.rs2 inst)) = .ok (op.result (m.x (RiscV.rs1 inst)) (m.x (RiscV.rs2 inst))) := by
    rw [← rvOpValue_eq, ← funct3, ← funct7, ← decFunct3_eq, ← decFunct7_eq]
    rfl
  have executed : m.execute (rvDecode inst) = m.rvOp (rvDecode inst) := by
    rw [execute, selected]
    rfl
  rw [rvStep, fetched]
  show ((m.execute (rvDecode inst)).bind fun m => .ok (m.set 0 0)) = _
  rw [executed, rvOp, a, b, value, ← reg_decRd]
  exact congrArg Except.ok (set_zero m ..)

/-- A machine at address 0 with nothing but one instruction. -/
def oneWord (inst : BitVec 32) (x : Reg → BitVec 32) : Machine where
  x := x
  csr := fun _ => 0
  pc := 0
  memory := {
    chunks := [⟨0, 4, fun place => UInt8.ofNat (inst.toNat / 256 ^ place.val)⟩] }

/-- `DIV x3, x1, x2` of the least number by -1. -/
theorem rvStep_regOp_overflow :
    ((oneWord 0x0220C1B3 fun r => if r = 1 then 0x80000000 else -1).rvStep).map
      (fun m => (m.x 3, m.x 0, m.pc)) = .ok (0x80000000, 0, 4) := by
  have fetched : (oneWord 0x0220C1B3 fun r => if r = 1 then 0x80000000 else -1).memory.readW 0 =
    .ok 0x0220C1B3 := rfl
  rw [rvStep_regOp _ .div fetched (by decide) (by decide) (by decide)]
  rfl

end Machine

end Riscv2os.Emulator
