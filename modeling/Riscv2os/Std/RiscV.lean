import Mathlib.Data.BitVec
import Mathlib.Tactic

/-!
# RISC-V: registers, instruction fields and the results of instructions

The fields and immediates of a 32-bit instruction word, and what the register-register,
register-immediate, upper-immediate, control-flow and CSR instructions of RV32I and RV64I with
the extensions M and Zicsr compute, for registers of any width `w`. Results are stated over the integers that the
operands stand for; the choice of signed and unsigned operands is the choice of `toInt` and
`toNat`.
-/

namespace Riscv2os.Std

namespace RiscV

/-- The number of a general register. -/
abbrev Reg := BitVec 5

variable {w : Nat}

/-- The general registers after a write. Register 0 is zero whatever is written. -/
def writeReg (x : Reg → BitVec w) (rd : Reg) (value : BitVec w) : Reg → BitVec w := fun r =>
  if r = 0 then 0 else if r = rd then value else x r

@[simp] theorem writeReg_zero (x : Reg → BitVec w) (rd : Reg) (value : BitVec w) :
    writeReg x rd value 0 = 0 := if_pos rfl

theorem writeReg_self (x : Reg → BitVec w) {rd : Reg} (positive : rd ≠ 0) (value : BitVec w) :
    writeReg x rd value rd = value := by
  rw [writeReg, if_neg positive, if_pos rfl]

theorem writeReg_congr (x : Reg → BitVec w) {rd : Reg} {value value' : BitVec w} :
    writeReg x rd value = writeReg x rd value' ↔ rd = 0 ∨ value = value' := by
  constructor
  · intro same
    by_cases zero : rd = 0
    · exact .inl zero
    · refine .inr ?_
      rw [← writeReg_self x zero value, same, writeReg_self x zero value']
  · rintro (rfl | rfl)
    · funext r
      simp only [writeReg]
      split <;> rfl
    · rfl

section Fields

variable (inst : BitVec 32)

def opcode : BitVec 7 := inst.extractLsb' 0 7
def rd : Reg := inst.extractLsb' 7 5
def funct3 : BitVec 3 := inst.extractLsb' 12 3
def rs1 : Reg := inst.extractLsb' 15 5
def rs2 : Reg := inst.extractLsb' 20 5
def csr : BitVec 12 := inst.extractLsb' 20 12
def funct7 : BitVec 7 := inst.extractLsb' 25 7

/-- The immediate of the I-type. -/
def immI (w : Nat) : BitVec w := (inst.extractLsb' 20 12).signExtend w

/-- The immediate of the S-type. -/
def immS (w : Nat) : BitVec w := (inst.extractLsb' 25 7 ++ inst.extractLsb' 7 5).signExtend w

/-- The immediate of the B-type. -/
def immB (w : Nat) : BitVec w :=
  (inst.extractLsb' 31 1 ++ inst.extractLsb' 7 1 ++ inst.extractLsb' 25 6 ++ inst.extractLsb' 8 4 ++
    0#1).signExtend w

/-- The immediate of the U-type. -/
def immU (w : Nat) : BitVec w := (inst.extractLsb' 12 20 ++ 0#12).signExtend w

/-- The immediate of the J-type. -/
def immJ (w : Nat) : BitVec w :=
  (inst.extractLsb' 31 1 ++ inst.extractLsb' 12 8 ++ inst.extractLsb' 20 1 ++
    inst.extractLsb' 21 10 ++ 0#1).signExtend w

end Fields

/-- The opcode of register-register instructions. -/
def OP : BitVec 7 := 0b0110011

/-- The opcode of register-immediate instructions. -/
def OP_IMM : BitVec 7 := 0b0010011

/-- The register-register instructions. -/
inductive RegOp where
  | add | sub | sll | slt | sltu | xor | srl | sra | or | and
  | mul | mulh | mulhsu | mulhu | div | divu | rem | remu
deriving DecidableEq, Repr

namespace RegOp

/-- The field `funct7`. -/
def funct7 : RegOp → BitVec 7
  | sub | sra => 0b0100000
  | mul | mulh | mulhsu | mulhu | div | divu | rem | remu => 0b0000001
  | _ => 0b0000000

/-- The field `funct3`. -/
def funct3 : RegOp → BitVec 3
  | add | sub | mul => 0
  | sll | mulh => 1
  | slt | mulhsu => 2
  | sltu | mulhu => 3
  | xor | div => 4
  | srl | sra | divu => 5
  | or | rem => 6
  | and | remu => 7

/-- The result for the values of `rs1` and `rs2`. A quotient by zero has all bits set and
a remainder by zero is the dividend; the quotient of the least number by -1 wraps. -/
def result : RegOp → BitVec w → BitVec w → BitVec w
  | add, a, b => BitVec.ofInt w (a.toInt + b.toInt)
  | sub, a, b => BitVec.ofInt w (a.toInt - b.toInt)
  | sll, a, b => a <<< (b.toNat % w)
  | slt, a, b => if a.toInt < b.toInt then 1 else 0
  | sltu, a, b => if a.toNat < b.toNat then 1 else 0
  | xor, a, b => a ^^^ b
  | srl, a, b => BitVec.ofNat w (a.toNat / 2 ^ (b.toNat % w))
  | sra, a, b => BitVec.ofInt w (a.toInt / 2 ^ (b.toNat % w))
  | or, a, b => a ||| b
  | and, a, b => a &&& b
  | mul, a, b => BitVec.ofInt w (a.toInt * b.toInt)
  | mulh, a, b => BitVec.ofInt w (a.toInt * b.toInt / 2 ^ w)
  | mulhsu, a, b => BitVec.ofInt w (a.toInt * b.toNat / 2 ^ w)
  | mulhu, a, b => BitVec.ofNat w (a.toNat * b.toNat / 2 ^ w)
  | div, a, b => if b = 0 then -1 else BitVec.ofInt w (a.toInt.tdiv b.toInt)
  | divu, a, b => if b = 0 then -1 else BitVec.ofNat w (a.toNat / b.toNat)
  | rem, a, b => if b = 0 then a else BitVec.ofInt w (a.toInt.tmod b.toInt)
  | remu, a, b => if b = 0 then a else BitVec.ofNat w (a.toNat % b.toNat)

section Results

/-! The results by operations on bit vectors. -/

variable (a b : BitVec w)

theorem result_add : add.result a b = a + b := by
  change BitVec.ofInt w (a.toInt + b.toInt) = a + b
  rw [BitVec.ofInt_add, BitVec.ofInt_toInt, BitVec.ofInt_toInt]

theorem result_sub : sub.result a b = a - b := by
  change BitVec.ofInt w (a.toInt - b.toInt) = a - b
  rw [Int.sub_eq_add_neg, BitVec.ofInt_add, BitVec.ofInt_neg, BitVec.ofInt_toInt, BitVec.ofInt_toInt,
    BitVec.sub_eq_add_neg]

theorem result_mul : mul.result a b = a * b := by
  change BitVec.ofInt w (a.toInt * b.toInt) = a * b
  rw [BitVec.ofInt_mul, BitVec.ofInt_toInt, BitVec.ofInt_toInt]

theorem result_slt : slt.result a b = if a.slt b then 1 else 0 := by
  change (if a.toInt < b.toInt then 1 else 0) = if a.slt b then 1 else 0
  simp [BitVec.slt]

theorem result_sltu : sltu.result a b = if a.ult b then 1 else 0 := by
  change (if a.toNat < b.toNat then 1 else 0) = if a.ult b then 1 else 0
  simp [BitVec.ult]

theorem result_srl : srl.result a b = a >>> (b.toNat % w) := by
  apply BitVec.eq_of_toNat_eq
  have small : a.toNat / 2 ^ (b.toNat % w) < 2 ^ w := (Nat.div_le_self ..).trans_lt a.isLt
  change (BitVec.ofNat w (a.toNat / 2 ^ (b.toNat % w))).toNat = (a >>> (b.toNat % w)).toNat
  rw [BitVec.toNat_ushiftRight, Nat.shiftRight_eq_div_pow, BitVec.toNat_ofNat, Nat.mod_eq_of_lt small]

theorem result_sra : sra.result a b = a.sshiftRight (b.toNat % w) := by
  change BitVec.ofInt w (a.toInt / 2 ^ (b.toNat % w)) = a.sshiftRight (b.toNat % w)
  rw [← @BitVec.ofInt_toInt _ (a.sshiftRight _), BitVec.toInt_sshiftRight, Int.shiftRight_eq_div_pow]
  norm_cast

end Results

end RegOp

/-- The register-immediate instructions. -/
inductive ImmOp where
  | addi | slti | sltiu | xori | ori | andi | slli | srli | srai
deriving DecidableEq, Repr

namespace ImmOp

/-- The field `funct3`. -/
def funct3 : ImmOp → BitVec 3
  | addi => 0
  | slli => 1
  | slti => 2
  | sltiu => 3
  | xori => 4
  | srli | srai => 5
  | ori => 6
  | andi => 7

/-- The register-register instruction with the immediate as second operand. -/
def regOp : ImmOp → RegOp
  | addi => .add
  | slti => .slt
  | sltiu => .sltu
  | xori => .xor
  | ori => .or
  | andi => .and
  | slli => .sll
  | srli => .srl
  | srai => .sra

/-- Whether the immediate is a shift amount. -/
def shifts : ImmOp → Bool
  | slli | srli | srai => true
  | _ => false

/-- A word of the opcode `OP_IMM` that encodes the instruction on RV32: the upper bits of
a shift amount are fixed. -/
def Encodes (op : ImmOp) (inst : BitVec 32) : Prop :=
  RiscV.funct3 inst = op.funct3 ∧ (op.shifts = true → RiscV.funct7 inst = op.regOp.funct7)

instance (op : ImmOp) (inst : BitVec 32) : Decidable (op.Encodes inst) :=
  inferInstanceAs (Decidable (_ ∧ (_ → _)))

/-- The result for the value of `rs1`. A shift takes its amount from the field of `rs2`. -/
def result (op : ImmOp) (inst : BitVec 32) (a : BitVec w) : BitVec w :=
  op.regOp.result a (if op.shifts then (rs2 inst).setWidth w else immI inst w)

/-- A word of the opcode `OP_IMM` that encodes the instruction on RV64, where the shift amount has one more bit. -/
def Encodes64 (op : ImmOp) (inst : BitVec 32) : Prop :=
  RiscV.funct3 inst = op.funct3 ∧
    (op.shifts = true → inst.extractLsb' 26 6 = op.regOp.funct7.extractLsb' 1 6)

instance (op : ImmOp) (inst : BitVec 32) : Decidable (op.Encodes64 inst) :=
  inferInstanceAs (Decidable (_ ∧ (_ → _)))

/-- The result on RV64. -/
def result64 (op : ImmOp) (inst : BitVec 32) (a : BitVec 64) : BitVec 64 :=
  op.regOp.result a (if op.shifts then (inst.extractLsb' 20 6).setWidth 64 else immI inst 64)

end ImmOp

/-- The conditional branches. -/
inductive BranchOp where
  | beq | bne | blt | bge | bltu | bgeu
deriving DecidableEq, Repr

namespace BranchOp

/-- The field `funct3`. -/
def funct3 : BranchOp → BitVec 3
  | beq => 0
  | bne => 1
  | blt => 4
  | bge => 5
  | bltu => 6
  | bgeu => 7

/-- Whether the branch is taken for the values of `rs1` and `rs2`. -/
def taken : BranchOp → BitVec w → BitVec w → Bool
  | beq, a, b => a = b
  | bne, a, b => a ≠ b
  | blt, a, b => a.toInt < b.toInt
  | bge, a, b => b.toInt ≤ a.toInt
  | bltu, a, b => a.toNat < b.toNat
  | bgeu, a, b => b.toNat ≤ a.toNat

end BranchOp

/-- The upper-immediate and control-flow instructions. -/
inductive ControlOp where
  | lui | auipc | jal | jalr | branch (op : BranchOp)
deriving DecidableEq, Repr

namespace ControlOp

def opcode : ControlOp → BitVec 7
  | lui => 0b0110111
  | auipc => 0b0010111
  | jal => 0b1101111
  | jalr => 0b1100111
  | branch _ => 0b1100011

/-- The words that encode the instruction. -/
def Encodes (op : ControlOp) (inst : BitVec 32) : Prop :=
  RiscV.opcode inst = op.opcode ∧
    match op with
    | jalr => RiscV.funct3 inst = 0
    | branch op => RiscV.funct3 inst = op.funct3
    | _ => True

instance (op : ControlOp) (inst : BitVec 32) : Decidable (op.Encodes inst) :=
  match op with
  | lui | auipc | jal => inferInstanceAs (Decidable (_ ∧ True))
  | jalr | branch _ => inferInstanceAs (Decidable (_ = _ ∧ _ = _))

/-- Where the instruction goes on, from its address and the registers. -/
def target (op : ControlOp) (inst : BitVec 32) (pc : BitVec w) (x : Reg → BitVec w) : BitVec w :=
  match op with
  | jal => pc + immJ inst w
  | jalr => (x (rs1 inst) + immI inst w) &&& ~~~1
  | branch op =>
      if op.taken (x (rs1 inst)) (x (rs2 inst)) then pc + immB inst w else pc + 4
  | _ => pc + 4

/-- The registers after the instruction. A branch writes none of them but `x0`. -/
def registers (op : ControlOp) (inst : BitVec 32) (pc : BitVec w) (x : Reg → BitVec w) :
    Reg → BitVec w :=
  match op with
  | lui => writeReg x (rd inst) (immU inst w)
  | auipc => writeReg x (rd inst) (pc + immU inst w)
  | branch _ => writeReg x 0 0
  | _ => writeReg x (rd inst) (pc + 4)

end ControlOp

/-- The instructions that work on registers and the program counter only. -/
inductive BaseOp where
  | register (op : RegOp)
  | immediate (op : ImmOp)
  | control (op : ControlOp)
deriving DecidableEq, Repr

namespace BaseOp

/-- The words that encode the instruction on RV64. -/
def Encodes64 (op : BaseOp) (inst : BitVec 32) : Prop :=
  match op with
  | register op => opcode inst = OP ∧ RiscV.funct3 inst = op.funct3 ∧ RiscV.funct7 inst = op.funct7
  | immediate op => opcode inst = OP_IMM ∧ op.Encodes64 inst
  | control op => op.Encodes inst

/-- The registers after the instruction, from its address and the registers before it. -/
def registers64 (op : BaseOp) (inst : BitVec 32) (pc : BitVec 64) (x : Reg → BitVec 64) : Reg → BitVec 64 :=
  match op with
  | register op => writeReg x (rd inst) (op.result (x (rs1 inst)) (x (rs2 inst)))
  | immediate op => writeReg x (rd inst) (op.result64 inst (x (rs1 inst)))
  | control op => op.registers inst pc x

/-- Where the instruction goes on. -/
def target64 (op : BaseOp) (inst : BitVec 32) (pc : BitVec 64) (x : Reg → BitVec 64) : BitVec 64 :=
  match op with
  | control op => op.target inst pc x
  | _ => pc + 4

end BaseOp

/-- The opcodes of the 32-bit forms of RV64, and of the atomic instructions. -/
def OP_32 : BitVec 7 := 0b0111011
def OP_IMM_32 : BitVec 7 := 0b0011011
def AMO : BitVec 7 := 0b0101111

/-- The register-register instructions that have a 32-bit form. -/
def RegOp.onWords : RegOp → Bool
  | .add | .sub | .sll | .srl | .sra | .mul | .div | .divu | .rem | .remu => true
  | _ => false

/-- The result of the 32-bit form: that of the lower halves, with its sign. -/
def RegOp.resultWord (op : RegOp) (a b : BitVec 64) : BitVec 64 :=
  (op.result (a.setWidth 32) (b.setWidth 32)).signExtend 64

/-- The register-immediate instructions that have a 32-bit form. -/
def ImmOp.onWords : ImmOp → Bool
  | .addi | .slli | .srli | .srai => true
  | _ => false

/-- The result of the 32-bit form. -/
def ImmOp.resultWord (op : ImmOp) (inst : BitVec 32) (a : BitVec 64) : BitVec 64 :=
  (op.result inst (a.setWidth 32)).signExtend 64

/-- The atomic instructions that load, combine and store. -/
inductive AmoOp where
  | amoadd | amoswap | amoxor | amoor | amoand | amomin | amomax | amominu | amomaxu
deriving DecidableEq, Repr

namespace AmoOp

/-- The field `funct5`. -/
def funct5 : AmoOp → BitVec 5
  | amoadd => 0
  | amoswap => 1
  | amoxor => 4
  | amoor => 8
  | amoand => 12
  | amomin => 16
  | amomax => 20
  | amominu => 24
  | amomaxu => 28

/-- What is stored for the number in memory and the value of `rs2`. -/
def update : AmoOp → BitVec w → BitVec w → BitVec w
  | amoadd, t, b => t + b
  | amoswap, _, b => b
  | amoxor, t, b => t ^^^ b
  | amoor, t, b => t ||| b
  | amoand, t, b => t &&& b
  | amomin, t, b => if t.toInt ≤ b.toInt then t else b
  | amomax, t, b => if t.toInt ≤ b.toInt then b else t
  | amominu, t, b => if t.toNat ≤ b.toNat then t else b
  | amomaxu, t, b => if t.toNat ≤ b.toNat then b else t

end AmoOp

/-- The instructions of RV64 that work on 32-bit words. -/
inductive WordOp where
  | register (op : RegOp)
  | immediate (op : ImmOp)
  | atomic (op : AmoOp)
deriving DecidableEq, Repr

/-- The words that encode the instruction. -/
def WordOp.Encodes (op : WordOp) (inst : BitVec 32) : Prop :=
  match op with
  | register op => op.onWords ∧ opcode inst = OP_32 ∧ RiscV.funct3 inst = op.funct3 ∧ RiscV.funct7 inst = op.funct7
  | immediate op => op.onWords ∧ opcode inst = OP_IMM_32 ∧ op.Encodes inst
  | atomic op => opcode inst = AMO ∧ RiscV.funct3 inst = 2 ∧ inst.extractLsb' 27 5 = op.funct5

instance (op : WordOp) (inst : BitVec 32) : Decidable (op.Encodes inst) :=
  match op with
  | .register _ => inferInstanceAs (Decidable (_ ∧ _ ∧ _ ∧ _))
  | .immediate _ | .atomic _ => inferInstanceAs (Decidable (_ ∧ _ ∧ _))

/-- The opcode of the CSR instructions. -/
def SYSTEM : BitVec 7 := 0b1110011

/-- The instructions that read and change a CSR. -/
inductive CsrOp where
  | csrrw | csrrs | csrrc | csrrwi | csrrsi | csrrci
deriving DecidableEq, Repr

namespace CsrOp

/-- The field `funct3`. -/
def funct3 : CsrOp → BitVec 3
  | csrrw => 1
  | csrrs => 2
  | csrrc => 3
  | csrrwi => 5
  | csrrsi => 6
  | csrrci => 7

/-- The operand: the value of `rs1`, or its number. -/
def operand (op : CsrOp) (inst : BitVec 32) (x : Reg → BitVec w) : BitVec w :=
  match op with
  | csrrw | csrrs | csrrc => x (rs1 inst)
  | csrrwi | csrrsi | csrrci => (rs1 inst).setWidth w

/-- The new value of the CSR. -/
def update : CsrOp → BitVec w → BitVec w → BitVec w
  | csrrw, _, operand | csrrwi, _, operand => operand
  | csrrs, old, operand | csrrsi, old, operand => old ||| operand
  | csrrc, old, operand | csrrci, old, operand => old &&& ~~~operand

end CsrOp

/-- The number whose digits to base 256 are the given bytes, the least significant first. -/
def littleEndian (count : Nat) (byte : Nat → UInt8) : Nat :=
  (List.range count).foldr (fun k high => (byte k).toNat + 256 * high) 0

theorem littleEndian_congr {count : Nat} {byte byte' : Nat → UInt8}
    (same : ∀ k < count, byte k = byte' k) : littleEndian count byte = littleEndian count byte' :=
  List.foldr_ext _ _ _ fun k member high => by rw [same k (List.mem_range.mp member)]

/-- The loads of RV32I. -/
inductive LoadOp where
  | lb | lh | lw | lbu | lhu
deriving DecidableEq, Repr

namespace LoadOp

/-- The field `funct3`. -/
def funct3 : LoadOp → BitVec 3
  | lb => 0
  | lh => 1
  | lw => 2
  | lbu => 4
  | lhu => 5

/-- The number of bytes. -/
def count : LoadOp → Nat
  | lb | lbu => 1
  | lh | lhu => 2
  | lw => 4

/-- The register for the bytes that are read. -/
def extend (op : LoadOp) (value : Nat) : BitVec w :=
  match op with
  | lb => (BitVec.ofNat 8 value).signExtend w
  | lh => (BitVec.ofNat 16 value).signExtend w
  | lw => (BitVec.ofNat 32 value).signExtend w
  | lbu => (BitVec.ofNat 8 value).setWidth w
  | lhu => (BitVec.ofNat 16 value).setWidth w

end LoadOp

/-- The stores of RV32I. -/
inductive StoreOp where
  | sb | sh | sw
deriving DecidableEq, Repr

namespace StoreOp

/-- The field `funct3`. -/
def funct3 : StoreOp → BitVec 3
  | sb => 0
  | sh => 1
  | sw => 2

/-- The number of bytes. -/
def count : StoreOp → Nat
  | sb => 1
  | sh => 2
  | sw => 4

end StoreOp

/-- The opcodes of loads, stores and fences. -/
def LOAD : BitVec 7 := 0b0000011
def STORE : BitVec 7 := 0b0100011
def MISC_MEM : BitVec 7 := 0b0001111

def ECALL : BitVec 32 := 0x00000073
def EBREAK : BitVec 32 := 0x00100073

/-- The words that encode an instruction of RV32I with the extensions M and Zicsr. A fence has
one fixed field, `funct3`. -/
inductive Legal (inst : BitVec 32) : Prop where
  | control (op : ControlOp) (encodes : op.Encodes inst)
  | register (op : RegOp) (opcode : RiscV.opcode inst = OP) (funct3 : RiscV.funct3 inst = op.funct3)
      (funct7 : RiscV.funct7 inst = op.funct7)
  | immediate (op : ImmOp) (opcode : RiscV.opcode inst = OP_IMM) (encodes : op.Encodes inst)
  | load (op : LoadOp) (opcode : RiscV.opcode inst = LOAD) (funct3 : RiscV.funct3 inst = op.funct3)
  | store (op : StoreOp) (opcode : RiscV.opcode inst = STORE) (funct3 : RiscV.funct3 inst = op.funct3)
  | csr (op : CsrOp) (opcode : RiscV.opcode inst = SYSTEM) (funct3 : RiscV.funct3 inst = op.funct3)
  | fence (opcode : RiscV.opcode inst = MISC_MEM) (funct3 : RiscV.funct3 inst = 0)
  | ecall (word : inst = ECALL)
  | ebreak (word : inst = EBREAK)

/-- The two low bits of every encoding are set. -/
theorem Legal.lowBits {inst : BitVec 32} (legal : Legal inst) : (opcode inst).extractLsb' 0 2 = 0b11 := by
  cases legal with
  | control op encodes =>
      rw [encodes.1]
      cases op <;> simp only [ControlOp.opcode] <;> rfl
  | register op opcode | immediate op opcode | load op opcode | store op opcode | csr op opcode
  | fence opcode =>
      rw [opcode]
      rfl
  | ecall word | ebreak word =>
      rw [word]
      rfl

end RiscV

end Riscv2os.Std
