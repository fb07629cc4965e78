import Riscv2os.Emulator.Memory
import Riscv2os.Std.RiscV

/-!
# One instruction of the emulator

The instruction fields of `src/vm/riscv/decoder.h`, `rv_decode` of `cpu.c` and `rv_step` of
`src/vm/vm.c` with the functions for the groups of instructions. The decoded fields are
global variables in C; they are set anew for each instruction. What is printed in trace mode
is left out.
-/

namespace Riscv2os.Emulator

open Riscv2os.Std
open RiscV (Reg)

section Masks

/-! The instruction decode masks. -/

def INST_6_2 : BitVec 32 := 0b00000000000000000000000001111100
def FR_RD : BitVec 32 := 0b00000000000000000000111110000000
def FR_FUNCT3 : BitVec 32 := 0b00000000000000000111000000000000
def FR_RS1 : BitVec 32 := 0b00000000000011111000000000000000
def FR_RS2 : BitVec 32 := 0b00000001111100000000000000000000
def FR_FUNCT7 : BitVec 32 := 0b11111110000000000000000000000000
def FI_IMM_11_0 : BitVec 32 := 0b11111111111100000000000000000000
def FS_IMM_4_0 : BitVec 32 := 0b00000000000000000000111110000000
def FS_IMM_11_5 : BitVec 32 := 0b11111110000000000000000000000000
def FB_IMM_11 : BitVec 32 := 0b00000000000000000000000010000000
def FB_IMM_4_1 : BitVec 32 := 0b00000000000000000000111100000000
def FB_IMM_10_5 : BitVec 32 := 0b01111110000000000000000000000000
def FB_IMM_12 : BitVec 32 := 0b10000000000000000000000000000000
def FU_IMM_31_12 : BitVec 32 := 0b11111111111111111111000000000000
def FJ_IMM_19_12 : BitVec 32 := 0b00000000000011111111000000000000
def FJ_IMM_11 : BitVec 32 := 0b00000000000100000000000000000000
def FJ_IMM_10_1 : BitVec 32 := 0b01111111111000000000000000000000
def FJ_IMM_20 : BitVec 32 := 0b10000000000000000000000000000000

end Masks

section Decoder

variable (inst : BitVec 32)

def decRd : BitVec 32 := (inst &&& FR_RD) >>> 7
def decRs1 : BitVec 32 := (inst &&& FR_RS1) >>> 15
def decRs2 : BitVec 32 := (inst &&& FR_RS2) >>> 20
def decFunct3 : BitVec 32 := (inst &&& FR_FUNCT3) >>> 12
def decFunct7 : BitVec 32 := (inst &&& FR_FUNCT7) >>> 25
def decUtypeImm : BitVec 32 := inst &&& FU_IMM_31_12

def decJtypeImm : BitVec 32 :=
  ((inst &&& FJ_IMM_20) ||| ((inst &&& FJ_IMM_19_12) <<< 11) ||| ((inst &&& FJ_IMM_11) <<< 2) |||
    ((inst &&& FJ_IMM_10_1) >>> 9)).sshiftRight 11

def decItypeImm : BitVec 32 := (inst &&& FI_IMM_11_0).sshiftRight 20
def decCsr : BitVec 32 := (inst &&& FI_IMM_11_0) >>> 20

def decBtypeImm : BitVec 32 :=
  ((inst &&& FB_IMM_12) ||| ((inst &&& FB_IMM_11) <<< 23) ||| ((inst &&& FB_IMM_10_5) >>> 1) |||
    ((inst &&& FB_IMM_4_1) <<< 12)).sshiftRight 19

def decStypeImm : BitVec 32 :=
  ((inst &&& FS_IMM_11_5) ||| ((inst &&& FS_IMM_4_0) <<< 13)).sshiftRight 20

end Decoder

/-- What `rv_decode` computes. -/
structure Decoded where
  op : BitVec 32
  rd : BitVec 32
  rs1 : BitVec 32
  rs2 : BitVec 32
  funct3 : BitVec 32
  funct7 : BitVec 32
  iImm : BitVec 32
  bImm : BitVec 32
  uImm : BitVec 32
  jImm : BitVec 32
  sImm : BitVec 32
  csrId : BitVec 32

def rvDecode (inst : BitVec 32) : Decoded where
  op := (inst &&& INST_6_2) >>> 2
  rd := decRd inst
  funct3 := decFunct3 inst
  rs1 := decRs1 inst
  rs2 := decRs2 inst
  funct7 := decFunct7 inst
  iImm := decItypeImm inst
  bImm := decBtypeImm inst
  uImm := decUtypeImm inst
  jImm := decJtypeImm inst
  sImm := decStypeImm inst
  csrId := decCsr inst

/-- The state of the emulated machine. -/
structure Machine where
  x : Reg → BitVec 32
  csr : BitVec 12 → BitVec 32
  pc : BitVec 32
  memory : Memory

/-- The index of a register as the decoder computes it. -/
def reg (n : BitVec 32) : Reg := n.setWidth 5

namespace Machine

/-- The value of a register. -/
def get (m : Machine) (n : BitVec 32) : BitVec 32 := m.x (reg n)

/-- `x[n] = value`. -/
def set (m : Machine) (n value : BitVec 32) : Machine :=
  { m with x := Function.update m.x (reg n) value }

/-- `pc += 4`. -/
def next (m : Machine) : Machine := { m with pc := m.pc + 4 }

/-- A condition as an `int`. -/
def ofBool (b : Bool) : BitVec 32 := if b then 1 else 0

/-- The signed quotient on the host. -/
def hostDiv (dividend divisor : BitVec 32) : Except Stop (BitVec 32) :=
  if divisor = 0 ∨ (dividend = 0x80000000 ∧ divisor = -1) then .error .trap
  else .ok (dividend.sdiv divisor)

/-- The signed remainder on the host. -/
def hostRem (dividend divisor : BitVec 32) : Except Stop (BitVec 32) :=
  if divisor = 0 ∨ (dividend = 0x80000000 ∧ divisor = -1) then .error .trap
  else .ok (dividend.srem divisor)

/-- The unsigned quotient on the host. -/
def hostDivU (dividend divisor : BitVec 32) : Except Stop (BitVec 32) :=
  if divisor = 0 then .error .trap else .ok (dividend / divisor)

/-- The unsigned remainder on the host. -/
def hostRemU (dividend divisor : BitVec 32) : Except Stop (BitVec 32) :=
  if divisor = 0 then .error .trap else .ok (dividend % divisor)

/-- The case `rv32m` of `rv_op`, for the values of `rs1` and `rs2`. -/
def rvOpM (funct3 funct7 : BitVec 32) (a b : BitVec 32) : Except Stop (BitVec 32) :=
  match funct3.toNat with
  | 0 => .ok (a * b)
  | 1 => .ok (((a.signExtend 64 * b.signExtend 64) >>> 32).setWidth 32)
  | 2 => .ok (((a.signExtend 64 * b.setWidth 64) >>> 32).setWidth 32)
  | 3 => .ok (((a.setWidth 64 * b.setWidth 64) >>> 32).setWidth 32)
  | 4 =>
      if b = 0 then .ok (~~~0)
      else if b = -1 ∧ a = 0x80000000 then .ok a
      else hostDiv a b
  | 5 => if b = 0 then .ok (~~~0) else hostDivU a b
  | 6 =>
      if b = 0 then .ok a
      else if b = -1 ∧ a = 0x80000000 then .ok 0
      else hostRem a b
  | 7 => if b = 0 then .ok a else hostRemU a b
  | _ => .error (.error "rv_op() funct7=%02x funct3=%x not handled!" [funct7, funct3])

/-- What `rv_op` stores in `x[rd]`, for the values of `rs1` and `rs2`. -/
def rvOpValue (funct3 funct7 : BitVec 32) (a b : BitVec 32) : Except Stop (BitVec 32) :=
  match funct7.toNat with
  | 0b0000000 =>
      match funct3.toNat with
      | 0 => .ok (a + b)
      | 1 => .ok (a <<< (b &&& 0x1f).toNat)
      | 2 => .ok (ofBool (a.slt b))
      | 3 => .ok (ofBool (a.ult b))
      | 4 => .ok (a ^^^ b)
      | 5 => .ok (a >>> (b &&& 0x1f).toNat)
      | 6 => .ok (a ||| b)
      | 7 => .ok (a &&& b)
      | _ => .error (.error "rv_op() funct7=%02x funct3=%x not handled!" [funct7, funct3])
  | 0b0000001 => rvOpM funct3 funct7 a b
  | 0b0100000 =>
      match funct3.toNat with
      | 0b000 => .ok (a - b)
      | 0b101 => .ok (a.sshiftRight (b &&& 0x1f).toNat)
      | _ => .error (.error "rv_op() funct7=%02x funct3=%x not handled!" [funct7, funct3])
  | _ => .error (.error "rv_op() funct7=%02x not handled!" [funct7])

def rvOp (m : Machine) (d : Decoded) : Except Stop Machine := do
  let value ← rvOpValue d.funct3 d.funct7 (m.get d.rs1) (m.get d.rs2)
  return (m.set d.rd value).next

/-- The case 5 of `rv_op_imm` has no `break`: it goes on with `ORI`. -/
def rvOpImm (m : Machine) (d : Decoded) : Except Stop Machine :=
  let imm := d.iImm
  let a := m.get d.rs1
  let orI (m : Machine) := m.set d.rd (m.get d.rs1 ||| imm)
  let stored : Except Stop Machine :=
    match d.funct3.toNat with
    | 0 => .ok (m.set d.rd (a + imm))
    | 1 => .ok (m.set d.rd (a <<< (imm &&& 0x1f).toNat))
    | 2 => .ok (m.set d.rd (ofBool (a.slt imm)))
    | 3 => .ok (m.set d.rd (ofBool (a.ult imm)))
    | 4 => .ok (m.set d.rd (a ^^^ imm))
    | 5 =>
        if imm &&& ~~~0x1f ≠ 0 then .ok (orI (m.set d.rd (a.sshiftRight (imm &&& 0x1f).toNat)))
        else .ok (orI (m.set d.rd (a >>> (imm &&& 0x1f).toNat)))
    | 6 => .ok (orI m)
    | 7 => .ok (m.set d.rd (a &&& imm))
    | _ => .error (.error "rv_op_imm() funct3=%d not handled!" [d.funct3])
  stored.map next

def rvBranch (m : Machine) (d : Decoded) : Except Stop Machine := do
  let a := m.get d.rs1
  let b := m.get d.rs2
  let jmp : Bool ← match d.funct3.toNat with
    | 0 => .ok (a == b)
    | 1 => .ok (a != b)
    | 4 => .ok (a.slt b)
    | 5 => .ok (!a.slt b)
    | 6 => .ok (a.ult b)
    | 7 => .ok (!a.ult b)
    | _ => .error (.error "rv_branch() funct3=%d not handled!" [d.funct3])
  return if jmp then { m with pc := m.pc + d.bImm } else m.next

def rvLoad (m : Machine) (d : Decoded) : Except Stop Machine := do
  let addr := m.get d.rs1 + d.iImm
  let value : BitVec 32 ← match d.funct3.toNat with
    | 0 => pure ((← m.memory.readB addr).signExtend 32)
    | 1 => pure ((← m.memory.readS addr).signExtend 32)
    | 2 => m.memory.readW addr
    | 4 => pure ((← m.memory.readB addr).setWidth 32)
    | 5 =>
        if addr &&& 1 ≠ 0 then .error (.error "rv_load() LHU addr should be times of 2!" [])
        else pure ((← m.memory.readS addr).setWidth 32)
    | _ => .error (.error "rv_load() funct3=%d not handled!" [d.funct3])
  return (m.set d.rd value).next

def rvStore (m : Machine) (d : Decoded) : Except Stop Machine := do
  let addr := m.get d.rs1 + d.sImm
  let data := m.get d.rs2
  let memory ← match d.funct3.toNat with
    | 0 => m.memory.writeB addr (data.setWidth 8)
    | 1 => m.memory.writeS addr (data.setWidth 16)
    | 2 => m.memory.writeW addr data
    | _ => .error (.error "rv_store() funct3=%d not handled!" [d.funct3])
  return { m with memory := memory }.next

/-- `csrrw`, `csrrs` and `csrrc`: read a CSR and change it. -/
def csrUpdate (m : Machine) (csri : BitVec 32) (change : BitVec 32 → BitVec 32) :
    BitVec 32 × Machine :=
  let i := csri.setWidth 12
  (m.csr i, { m with csr := Function.update m.csr i (change (m.csr i)) })

def csrrw (m : Machine) (csri val : BitVec 32) : BitVec 32 × Machine :=
  m.csrUpdate csri fun _ => val

def csrrs (m : Machine) (csri val : BitVec 32) : BitVec 32 × Machine :=
  m.csrUpdate csri fun old => old ||| val

def csrrc (m : Machine) (csri val : BitVec 32) : BitVec 32 × Machine :=
  m.csrUpdate csri fun old => old &&& ~~~val

def rvSystem (m : Machine) (d : Decoded) : Except Stop Machine := do
  let (tmp, m) ← match d.funct3.toNat with
    | 1 => .ok (m.csrrw d.csrId (m.get d.rs1))
    | 2 => .ok (m.csrrs d.csrId (if d.rs1 = 0 then 0 else m.get d.rs1))
    | 3 => .ok (m.csrrs d.csrId (if d.rs1 = 0 then ~~~0 else m.get d.rs1))
    | 5 => .ok (m.csrrw d.csrId d.rs1)
    | 6 => .ok (m.csrrs d.csrId d.rs1)
    | 7 => .ok (m.csrrc d.csrId d.rs1)
    | _ => .error (.error "rv_system() funct3=%d not handled!" [d.funct3])
  return (m.set d.rd (if d.rd ≠ 0 then tmp else m.get d.rd)).next

/-- The `switch` of `rv_step`. -/
def execute (m : Machine) (d : Decoded) : Except Stop Machine :=
  match d.op.toNat with
  | 0b01101 => .ok (m.set d.rd d.uImm).next
  | 0b00101 => .ok (m.set d.rd (d.uImm + m.pc)).next
  | 0b11011 => .ok ({ m with pc := m.pc + d.jImm }.set d.rd (m.pc + 4))
  | 0b11001 => .ok ({ m with pc := (m.get d.rs1 + d.iImm) &&& ~~~1 }.set d.rd (m.pc + 4))
  | 0b01100 => m.rvOp d
  | 0b00100 => m.rvOpImm d
  | 0b11000 => m.rvBranch d
  | 0b00000 => m.rvLoad d
  | 0b01000 => m.rvStore d
  | 0b11100 => m.rvSystem d
  | 0b00011 => .ok m.next
  | _ => .error (.error "rv_step() op=%d not handled!" [d.op])

def rvStep (m : Machine) : Except Stop Machine := do
  let inst ← m.memory.readW m.pc
  let m ← m.execute (rvDecode inst)
  return m.set 0 0

end Machine

end Riscv2os.Emulator
