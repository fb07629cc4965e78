import Riscv2os.Emulator.RegisterOps

/-!
# The register-immediate instructions of the emulator

`rv_op_imm` computes the specified result for each of them, but the right shifts go on with
the code of `ORI`. What is left in `rd` is then the operand or, if `rd` is also the source,
the shifted operand, with the bits of the immediate set.
-/

namespace Riscv2os.Emulator

open Riscv2os.Std
open RiscV (Reg RegOp ImmOp writeReg)

/-- The immediate as its two fields. -/
theorem immI_eq (inst : BitVec 32) :
    RiscV.immI inst 32 = (RiscV.funct7 inst ++ RiscV.rs2 inst).signExtend 32 := by
  unfold RiscV.immI
  congr 1
  apply BitVec.eq_of_getLsbD_eq
  intro i small
  simp only [RiscV.funct7, RiscV.rs2, BitVec.getLsbD_append, BitVec.getLsbD_extractLsb']
  by_cases low : i < 5
  · simp [low, small]
  · have : 25 + (i - 5) = 20 + i := by omega
    have : i - 5 < 7 := by omega
    simp [*]

/-- The immediate of a logical shift is the shift amount. -/
theorem immI_shift {inst : BitVec 32} (logical : RiscV.funct7 inst = 0) :
    RiscV.immI inst 32 = (RiscV.rs2 inst).setWidth 32 := by
  have all : ∀ shamt : BitVec 5, ((0 : BitVec 7) ++ shamt).signExtend 32 = shamt.setWidth 32 := by
    decide
  rw [immI_eq, logical, all]

/-- The immediate of an arithmetic shift has bit 10 as well. -/
theorem immI_arithmetic {inst : BitVec 32} (arithmetic : RiscV.funct7 inst = 0b0100000) :
    RiscV.immI inst 32 = (RiscV.rs2 inst).setWidth 32 ||| 0x400 := by
  have all : ∀ shamt : BitVec 5,
      ((0b0100000 : BitVec 7) ++ shamt).signExtend 32 = shamt.setWidth 32 ||| 0x400 := by
    decide
  rw [immI_eq, arithmetic, all]

namespace Machine

/-- What `rv_op` computes is the specified result. -/
theorem result_of_value (op : RegOp) {a b value : BitVec 32}
    (computed : rvOpValue (op.funct3.setWidth 32) (op.funct7.setWidth 32) a b = .ok value) :
    op.result a b = value := by
  rw [rvOpValue_eq] at computed
  exact Except.ok.inj computed

variable {m : Machine} {op : ImmOp} {inst : BitVec 32}

/-- What the decoder hands to `rv_op_imm`. -/
theorem rvOpImm_decoded (encodes : op.Encodes inst) :
    m.get (rvDecode inst).rs1 = m.x (RiscV.rs1 inst) ∧
      (rvDecode inst).iImm = RiscV.immI inst 32 ∧
      (rvDecode inst).funct3 = op.funct3.setWidth 32 := by
  refine ⟨congrArg m.x (reg_decRs1 inst), rvDecode_iImm inst, ?_⟩
  rw [← encodes.1, ← decFunct3_eq]
  rfl

/-- Instructions other than right shifts store what is specified. -/
theorem rvOpImm_eq (encodes : op.Encodes inst) (single : op.funct3 ≠ 5) :
    m.rvOpImm (rvDecode inst) =
      .ok (m.set (rvDecode inst).rd (op.result inst (m.x (RiscV.rs1 inst)))).next := by
  obtain ⟨read, imm, selected⟩ := rvOpImm_decoded encodes
  unfold rvOpImm
  rw [read, imm, selected]
  generalize m.x (RiscV.rs1 inst) = a at read ⊢
  cases op
  case addi =>
    have value : ImmOp.addi.result inst a = a + RiscV.immI inst 32 := result_of_value .add rfl
    rw [value]
    rfl
  case slti =>
    have value : ImmOp.slti.result inst a = ofBool (a.slt (RiscV.immI inst 32)) :=
      result_of_value .slt rfl
    rw [value]
    rfl
  case sltiu =>
    have value : ImmOp.sltiu.result inst a = ofBool (a.ult (RiscV.immI inst 32)) :=
      result_of_value .sltu rfl
    rw [value]
    rfl
  case slli =>
    have value : ImmOp.slli.result inst a = a <<< (RiscV.immI inst 32 &&& 0x1f).toNat := by
      rw [immI_shift (encodes.2 rfl)]
      exact result_of_value .sll rfl
    rw [value]
    rfl
  case xori => rfl
  case ori =>
    show Except.ok (m.set _ (m.get _ ||| RiscV.immI inst 32)).next = _
    rw [read]
    rfl
  case andi => rfl
  case srli => exact absurd rfl single
  case srai => exact absurd rfl single

/-- Right shifts go on with `ORI`. -/
theorem rvOpImm_fallsThrough (encodes : op.Encodes inst) (shift : op.funct3 = 5) :
    m.rvOpImm (rvDecode inst) =
      let shifted := m.set (rvDecode inst).rd (op.result inst (m.x (RiscV.rs1 inst)))
      .ok (shifted.set (rvDecode inst).rd
        (shifted.get (rvDecode inst).rs1 ||| RiscV.immI inst 32)).next := by
  obtain ⟨read, imm, selected⟩ := rvOpImm_decoded encodes
  unfold rvOpImm
  rw [read, imm, selected]
  generalize m.x (RiscV.rs1 inst) = a at read ⊢
  cases op
  case srli =>
    have logical : RiscV.immI inst 32 = (RiscV.rs2 inst).setWidth 32 := immI_shift (encodes.2 rfl)
    have none_ : ∀ shamt : BitVec 5, shamt.setWidth 32 &&& ~~~(0x1f : BitVec 32) = 0 := by decide
    have value : ImmOp.srli.result inst a = a >>> (RiscV.immI inst 32 &&& 0x1f).toNat := by
      rw [logical]
      exact result_of_value .srl rfl
    show Except.map next (if RiscV.immI inst 32 &&& ~~~0x1f ≠ 0 then _ else _) = _
    rw [if_neg (by rw [logical]; exact not_not.mpr (none_ _)), value]
    rfl
  case srai =>
    have arithmetic : RiscV.immI inst 32 = (RiscV.rs2 inst).setWidth 32 ||| 0x400 :=
      immI_arithmetic (encodes.2 rfl)
    have some_ : ∀ shamt : BitVec 5,
        (shamt.setWidth 32 ||| 0x400) &&& ~~~(0x1f : BitVec 32) ≠ 0 := by decide
    have amount : ∀ shamt : BitVec 5,
        (shamt.setWidth 32 ||| 0x400) &&& (0x1f : BitVec 32) = shamt.setWidth 32 &&& 0x1f := by decide
    have value : ImmOp.srai.result inst a = a.sshiftRight (RiscV.immI inst 32 &&& 0x1f).toNat := by
      rw [arithmetic, amount]
      exact result_of_value .sra rfl
    show Except.map next (if RiscV.immI inst 32 &&& ~~~0x1f ≠ 0 then _ else _) = _
    rw [if_pos (by rw [arithmetic]; exact some_ _), value]
    rfl
  all_goals exact absurd shift (by decide)

/-- What `ORI` leaves of a shifted operand. -/
theorem set_fallsThrough (shifted : BitVec 32) :
    ((m.set (rvDecode inst).rd shifted).set (rvDecode inst).rd
      ((m.set (rvDecode inst).rd shifted).get (rvDecode inst).rs1 ||| RiscV.immI inst 32)) =
      m.set (rvDecode inst).rd
        ((if RiscV.rs1 inst = RiscV.rd inst then shifted else m.x (RiscV.rs1 inst)) |||
          RiscV.immI inst 32) := by
  have read : (m.set (rvDecode inst).rd shifted).get (rvDecode inst).rs1 =
      if RiscV.rs1 inst = RiscV.rd inst then shifted else m.x (RiscV.rs1 inst) := by
    rw [← reg_decRd, ← reg_decRs1]
    exact Function.update_apply ..
  rw [read]
  simp only [set, Function.update_idem]

end Machine

/-- The `ORI` that follows a right shift leaves the shifted operand as it is. When `rd` is
the source, the bits of the immediate are set already. When it is not, a logical shift is
by 0, and an arithmetic shift sets the same bits as the immediate does. -/
def OrHarmless (op : ImmOp) (inst a : BitVec 32) : Prop :=
  if RiscV.rs1 inst = RiscV.rd inst then
    ∀ i < 32, (RiscV.immI inst 32).getLsbD i = true → (op.result inst a).getLsbD i = true
  else
    match op with
    | .srai => ∀ i < 32,
        a.getLsbD (min (i + (RiscV.rs2 inst).toNat) 31) = (a.getLsbD i || (RiscV.immI inst 32).getLsbD i)
    | _ => RiscV.rs2 inst = 0

/-- The bits of the immediate are all set already. -/
theorem or_eq_left (shifted imm : BitVec 32) :
    shifted ||| imm = shifted ↔ ∀ i < 32, imm.getLsbD i = true → shifted.getLsbD i = true := by
  constructor
  · intro same i _ set_
    rw [← same, BitVec.getLsbD_or, set_, Bool.or_true]
  · intro inside
    apply BitVec.eq_of_getLsbD_eq
    intro i small
    rw [BitVec.getLsbD_or]
    have := inside i small
    cases found : imm.getLsbD i with
    | false => simp
    | true => simp [this found]

/-- Only a shift by 0 can leave as much as an `OR` with the shift amount. -/
theorem or_eq_ushiftRight (a : BitVec 32) (shamt : BitVec 5) :
    a ||| shamt.setWidth 32 = a >>> shamt.toNat ↔ shamt = 0 := by
  constructor
  · intro same
    by_contra positive
    have amount : 0 < shamt.toNat := by
      have : shamt.toNat ≠ 0 := fun zero => positive (BitVec.eq_of_toNat_eq zero)
      omega
    have numbers := congrArg BitVec.toNat same
    rw [BitVec.toNat_or, BitVec.toNat_ushiftRight, Nat.shiftRight_eq_div_pow,
      BitVec.toNat_setWidth] at numbers
    have above : a.toNat ≤ a.toNat ||| shamt.toNat % 2 ^ 32 := Nat.left_le_or
    have above' : shamt.toNat % 2 ^ 32 ≤ a.toNat ||| shamt.toNat % 2 ^ 32 := Nat.right_le_or
    have half : a.toNat / 2 ^ shamt.toNat ≤ a.toNat / 2 :=
      Nat.div_le_div_left (by simpa using Nat.pow_le_pow_right (by decide : 0 < 2) amount) (by decide)
    have small := shamt.isLt
    omega
  · rintro rfl
    simp

/-- An `OR` that sets the same bits as an arithmetic shift. -/
theorem or_eq_sshiftRight (a imm : BitVec 32) (n : Nat) :
    a ||| imm = a.sshiftRight n ↔
      ∀ i < 32, a.getLsbD (min (i + n) 31) = (a.getLsbD i || imm.getLsbD i) := by
  have bit : ∀ i < 32, (a.sshiftRight n).getLsbD i = a.getLsbD (min (i + n) 31) := by
    intro i small
    rw [BitVec.getLsbD_sshiftRight, BitVec.msb_eq_getLsbD_last]
    by_cases inside : n + i < 32
    · have : min (i + n) 31 = n + i := by omega
      simp [inside, this, Nat.not_le.mpr small]
    · have : min (i + n) 31 = 31 := by omega
      simp [inside, this, Nat.not_le.mpr small]
  constructor
  · intro same i small
    rw [← bit i small, ← same, BitVec.getLsbD_or]
  · intro bits
    apply BitVec.eq_of_getLsbD_eq
    intro i small
    rw [bit i small, bits i small, BitVec.getLsbD_or]

theorem orHarmless_iff {op : ImmOp} {inst : BitVec 32} (encodes : op.Encodes inst)
    (shift : op.funct3 = 5) (a : BitVec 32) :
    (if RiscV.rs1 inst = RiscV.rd inst then op.result inst a else a) ||| RiscV.immI inst 32 =
      op.result inst a ↔ OrHarmless op inst a := by
  unfold OrHarmless
  have amount : ((RiscV.rs2 inst).setWidth 32 : BitVec 32).toNat % 32 = (RiscV.rs2 inst).toNat := by
    have := (RiscV.rs2 inst).isLt
    rw [BitVec.toNat_setWidth]
    omega
  split
  · exact or_eq_left ..
  · cases op
    case srli =>
      have value : ImmOp.srli.result inst a = a >>> (RiscV.rs2 inst).toNat := by
        rw [Machine.srl_eq, ← amount]
        rfl
      rw [immI_shift (encodes.2 rfl), value]
      exact or_eq_ushiftRight ..
    case srai =>
      have value : ImmOp.srai.result inst a = a.sshiftRight (RiscV.rs2 inst).toNat := by
        rw [Machine.sra_eq, ← amount]
        rfl
      rw [value]
      exact or_eq_sshiftRight ..
    all_goals exact absurd shift (by decide)

namespace Machine

variable {m : Machine} {op : ImmOp} {inst : BitVec 32}

/-- One step of the emulator carries out a register-immediate instruction of RV32I except
for the right shifts, and these only where the `ORI` that follows does no harm. -/
theorem rvStep_immOp_iff (fetched : m.memory.readW m.pc = .ok inst)
    (opcode : RiscV.opcode inst = RiscV.OP_IMM) (encodes : op.Encodes inst) :
    m.rvStep = .ok { m with
        x := writeReg m.x (RiscV.rd inst) (op.result inst (m.x (RiscV.rs1 inst)))
        pc := m.pc + 4 } ↔
      (op.funct3 = 5 → RiscV.rd inst = 0 ∨ OrHarmless op inst (m.x (RiscV.rs1 inst))) := by
  have selected : (rvDecode inst).op.toNat = 0b00100 := by
    rw [rvDecode_op, opcode]
    rfl
  have executed : m.execute (rvDecode inst) = m.rvOpImm (rvDecode inst) := by
    rw [execute, selected]
    rfl
  have stores : ∀ value, m.rvOpImm (rvDecode inst) = .ok (m.set (rvDecode inst).rd value).next →
      m.rvStep = .ok { m with x := writeReg m.x (RiscV.rd inst) value, pc := m.pc + 4 } := by
    intro value ran
    rw [rvStep, fetched]
    show ((m.execute (rvDecode inst)).bind fun m => .ok (m.set 0 0)) = _
    rw [executed, ran, ← reg_decRd]
    exact congrArg Except.ok (set_zero m ..)
  by_cases shift : op.funct3 = 5
  · have ran := rvOpImm_fallsThrough encodes shift (m := m)
    simp only [set_fallsThrough] at ran
    rw [stores _ ran, Except.ok.injEq, Machine.mk.injEq]
    simp only [and_true, shift, true_implies]
    rw [RiscV.writeReg_congr, orHarmless_iff encodes shift]
  · rw [stores _ (rvOpImm_eq encodes shift)]
    exact iff_of_true rfl fun same => absurd same shift

/-- `SRLI x2, x2, 1` of 6 leaves 3, in which bit 0 is set already. -/
theorem rvStep_immOp_harmless :
    ((oneWord 0x00115113 fun r => 3 * r.setWidth 32).rvStep).map (fun m => (m.x 1, m.x 2, m.x 3, m.pc)) =
      .ok (3, 3, 9, 4) := by
  have fetched : (oneWord 0x00115113 fun r => 3 * r.setWidth 32).memory.readW 0 = .ok 0x00115113 := rfl
  have shift : ImmOp.srli.Encodes 0x00115113 := by decide
  rw [(rvStep_immOp_iff fetched (by decide) shift).mpr fun _ => .inr (by unfold OrHarmless; decide)]
  rfl

/-- `SRLI x2, x1, 1` of 2 leaves 3, while the result is 1. -/
theorem rvStep_immOp_wrong :
    ImmOp.srli.Encodes 0x0010D113 ∧ RiscV.opcode 0x0010D113 = RiscV.OP_IMM ∧
      ImmOp.srli.result 0x0010D113 (2 : BitVec 32) = 1 ∧
      ((oneWord 0x0010D113 fun r => if r = 1 then 2 else 0).rvStep).map (fun m => m.x 2) = .ok 3 :=
  ⟨by decide, by decide, rfl, rfl⟩

end Machine

end Riscv2os.Emulator
