import Riscv2os.Semu.Bus
import Riscv2os.Std.RiscV

/-!
# The processor of the machine emulator

`struct cpu` of `semu.c` with its control registers, the translation of addresses, and `cpu_execute`
with one function for each case of its switch. The program counter is advanced before an instruction
is executed.
-/

namespace Riscv2os.Semu

open Riscv2os.Std
open RiscV (Reg)

def MSTATUS : BitVec 12 := 0x300
def MEDELEG : BitVec 12 := 0x302
def MIDELEG : BitVec 12 := 0x303
def MIE : BitVec 12 := 0x304
def MTVEC : BitVec 12 := 0x305
def MEPC : BitVec 12 := 0x341
def MCAUSE : BitVec 12 := 0x342
def MTVAL : BitVec 12 := 0x343
def MIP : BitVec 12 := 0x344
def SSTATUS : BitVec 12 := 0x100
def SIE : BitVec 12 := 0x104
def STVEC : BitVec 12 := 0x105
def SEPC : BitVec 12 := 0x141
def SCAUSE : BitVec 12 := 0x142
def STVAL : BitVec 12 := 0x143
def SIP : BitVec 12 := 0x144
def SATP : BitVec 12 := 0x180

def PAGE_SIZE : Word := 4096

/-- `cpu_mode_t`. -/
inductive Mode where
  | user
  | supervisor
  | machine
deriving DecidableEq, Repr

/-- `struct cpu`. -/
structure Cpu where
  regs : Reg → Word
  pc : Word
  csrs : BitVec 12 → Word
  mode : Mode
  bus : Bus
  enable_paging : Bool
  pagetable : Word

namespace Cpu

/-- `cpu_new`. -/
def new (code : List UInt8) (disk : Array UInt8) : Cpu where
  regs r := if r = 2 then RAM_BASE + BitVec.ofNat 64 RAM_SIZE else 0
  pc := RAM_BASE
  csrs _ := 0
  mode := .machine
  bus := Bus.new code disk
  enable_paging := false
  pagetable := 0

/-- `cpu_load_csr`. -/
def loadCsr (cpu : Cpu) (addr : BitVec 12) : Word :=
  if addr = SIE then cpu.csrs MIE &&& cpu.csrs MIDELEG else cpu.csrs addr

/-- `cpu->csrs[addr] = value`. -/
def setCsr (cpu : Cpu) (addr : BitVec 12) (value : Word) : Cpu :=
  { cpu with csrs := Function.update cpu.csrs addr value }

/-- `cpu_store_csr`. -/
def storeCsr (cpu : Cpu) (addr : BitVec 12) (value : Word) : Cpu :=
  if addr = SIE then
    cpu.setCsr MIE ((cpu.csrs MIE &&& ~~~cpu.csrs MIDELEG) ||| (value &&& cpu.csrs MIDELEG))
  else cpu.setCsr addr value

/-- `cpu->mode = mode; cpu->pc = pc`. -/
def goTo (cpu : Cpu) (mode : Mode) (pc : Word) : Cpu := { cpu with mode := mode, pc := pc }

/-- `cpu_update_paging`. -/
def updatePaging (cpu : Cpu) (csr_addr : BitVec 12) : Cpu :=
  if csr_addr ≠ SATP then cpu
  else
    { cpu with
      pagetable := (cpu.loadCsr SATP &&& (((1 : Word) <<< 44) - 1)) * PAGE_SIZE
      enable_paging := cpu.loadCsr SATP >>> 60 = 8 }

/-- Write a register, also `x0`. -/
def setReg (cpu : Cpu) (rd : Reg) (value : Word) : Cpu :=
  { cpu with regs := Function.update cpu.regs rd value }

/-- A call of the bus. -/
def onBus {α : Type} (call : Exec Bus α) : Exec Cpu α := ExceptT.mk fun cpu => do
  let (result, bus) ← call.run cpu.bus
  return (result, { cpu with bus := bus })

section OnBus

variable {α : Type} {call : Exec Bus α} {cpu cpu' : Cpu} {result : Except Exception α}

/-- A call of the bus changes the bus only. -/
theorem onBus_ok : (onBus call).run cpu = .ok (result, cpu') ↔
    ∃ bus, call.run cpu.bus = .ok (result, bus) ∧ { cpu with bus := bus } = cpu' := by
  show (call.run cpu.bus >>= _) = _ ↔ _
  cases call.run cpu.bus with
  | error c => exact ⟨nofun, nofun⟩
  | ok reached =>
      constructor
      · intro ran
        cases ran
        exact ⟨_, rfl, rfl⟩
      · rintro ⟨bus, called, rfl⟩
        cases called
        rfl

theorem onBus_crash {c : Crash} : (onBus call).run cpu = .error c ↔ call.run cpu.bus = .error c := by
  show (call.run cpu.bus >>= _) = _ ↔ _
  cases call.run cpu.bus with
  | error c' =>
      constructor
      · intro ran
        cases ran
        rfl
      · intro crashed
        cases crashed
        rfl
  | ok reached => exact ⟨nofun, nofun⟩

end OnBus

/-- The virtual page number of a level. -/
def vpn (addr : Word) (level : Nat) : Word := (addr >>> (12 + 9 * level)) &&& 0x1ff

/-- The loop of `cpu_translate` at `level - 1`, which ends with a leaf and its level. -/
def walk (addr : Word) (e : Exception) : Nat → Word → Exec Cpu (Word × Nat)
  | 0, _ => throw e
  | level + 1, a => do
      let pte ← onBus (Bus.load (a + vpn addr level * 8) 64)
      let v := pte.getLsbD 0
      let r := pte.getLsbD 1
      let w := pte.getLsbD 2
      let x := pte.getLsbD 3
      if !v || (!r && w) then throw e
      else if r || x then return (pte, level)
      else walk addr e level (((pte >>> 10) &&& 0x0fffffffffff) * PAGE_SIZE)

/-- The physical address of a leaf. -/
def leafAddr (addr pte : Word) (level : Nat) : Word :=
  let offset := addr &&& 0xfff
  if level = 0 then (((pte >>> 10) &&& 0x0fffffffffff) <<< 12) ||| offset
  else
    let ppn1 := (pte >>> 19) &&& 0x1ff
    let ppn2 := (pte >>> 28) &&& 0x03ffffff
    if level = 1 then (ppn2 <<< 30) ||| (ppn1 <<< 21) ||| (vpn addr 0 <<< 12) ||| offset
    else (ppn2 <<< 30) ||| (vpn addr 1 <<< 21) ||| (vpn addr 0 <<< 12) ||| offset

/-- `cpu_translate` with these two fields of the processor. -/
def translateWith (enable_paging : Bool) (pagetable addr : Word) (e : Exception) : Exec Cpu Word :=
  if enable_paging = false then return addr
  else do
    let leaf ← walk addr e 3 pagetable
    return leafAddr addr leaf.1 leaf.2

/-- `cpu_translate`. -/
def translate (addr : Word) (e : Exception) : Exec Cpu Word := do
  let cpu ← get
  translateWith cpu.enable_paging cpu.pagetable addr e

/-- The load of `cpu_fetch`, of which every failure is an access fault. -/
def fetchAt (ppc : Word) : Exec Cpu Word := ExceptT.mk fun cpu => do
  let (result, bus) ← (Bus.load ppc 32).run cpu.bus
  return (result.mapError fun _ => .instructionAccessFault, { cpu with bus := bus })

/-- `cpu_fetch`. -/
def fetch : Exec Cpu Word := do
  let ppc ← translate (← get).pc .instructionPageFault
  fetchAt ppc

/-- `cpu_load`. -/
def load (addr : Word) (size : Nat) : Exec Cpu Word := do
  let pa ← translate addr .loadPageFault
  onBus (Bus.load pa size)

/-- `cpu_store`. -/
def store (addr : Word) (size : Nat) (value : Word) : Exec Cpu Unit := do
  let pa ← translate addr .storeAmoPageFault
  onBus (Bus.store pa size value)

end Cpu

section Fields

/-! ## The fields of an instruction -/

variable (inst : Word)

def rdOf : Reg := (inst >>> 7).setWidth 5
def rs1Of : Reg := (inst >>> 15).setWidth 5
def rs2Of : Reg := (inst >>> 20).setWidth 5
def funct3Of : Word := (inst >>> 12) &&& 0x7
def funct7Of : Word := (inst >>> 25) &&& 0x7f

/-- `(int32_t) x`. -/
def int32 (x : Word) : BitVec 32 := x.setWidth 32

/-- `(int32_t) (inst & 0xfff00000) >> 20`. -/
def immI : Word := ((int32 (inst &&& 0xfff00000)).sshiftRight 20).signExtend 64

/-- The immediate of a store. -/
def immS : Word :=
  ((int32 (inst &&& 0xfe000000)).sshiftRight 20).signExtend 64 ||| ((inst >>> 7) &&& 0x1f)

/-- The immediate of a branch. -/
def immB : Word :=
  ((int32 (inst &&& 0x80000000)).sshiftRight 19).signExtend 64 ||| ((inst &&& 0x80) <<< 4) |||
    ((inst >>> 20) &&& 0x7e0) ||| ((inst >>> 7) &&& 0x1e)

/-- The immediate of `lui` and `auipc`. -/
def immU : Word := (int32 (inst &&& 0xfffff000)).signExtend 64

/-- The immediate of `jal`. -/
def immJ : Word :=
  ((int32 (inst &&& 0x80000000)).sshiftRight 11).signExtend 64 ||| (inst &&& 0xff000) |||
    ((inst >>> 9) &&& 0x800) ||| ((inst >>> 20) &&& 0x7fe)

end Fields

namespace Cpu

section Execute

/-! ## The cases of `cpu_execute` -/

variable (inst : Word)

/-- `cpu->regs[r]`. -/
def reg (r : Reg) : Exec Cpu Word := return (← get).regs r

theorem reg_run (r : Reg) (cpu : Cpu) : (reg r).run cpu = .ok (.ok (cpu.regs r), cpu) := rfl

/-- `cpu->regs[rd] = value`. -/
def writeRd (value : Word) : Exec Cpu Unit := modify fun cpu => cpu.setReg (rdOf inst) value

/-- A condition as a number. -/
def ofBool (b : Bool) : Word := if b then 1 else 0

/-- Opcode 0x03. -/
def execLoad : Exec Cpu Unit := do
  let imm := ((int32 inst).sshiftRight 20).signExtend 64
  let addr := (← reg (rs1Of inst)) + imm
  match (funct3Of inst).toNat with
  | 0x0 => writeRd inst (((← load addr 8).setWidth 8).signExtend 64)
  | 0x1 => writeRd inst (((← load addr 16).setWidth 16).signExtend 64)
  | 0x2 => writeRd inst (((← load addr 32).setWidth 32).signExtend 64)
  | 0x3 => writeRd inst (← load addr 64)
  | 0x4 => writeRd inst (← load addr 8)
  | 0x5 => writeRd inst (← load addr 16)
  | 0x6 => writeRd inst (← load addr 32)
  | _ => throw .illegalInstruction

/-- Opcode 0x0f. -/
def execFence : Exec Cpu Unit :=
  if funct3Of inst = 0 then return else throw .illegalInstruction

/-- Opcode 0x13. -/
def execOpImm : Exec Cpu Unit := do
  let a ← reg (rs1Of inst)
  let imm := immI inst
  let shamt := (imm &&& 0x3f).toNat
  match (funct3Of inst).toNat with
  | 0x0 => writeRd inst (a + imm)
  | 0x1 => writeRd inst (a <<< shamt)
  | 0x2 => writeRd inst (ofBool (a.slt imm))
  | 0x3 => writeRd inst (ofBool (a.ult imm))
  | 0x4 => writeRd inst (a ^^^ imm)
  | 0x5 =>
      match (funct7Of inst >>> 1).toNat with
      | 0x00 => writeRd inst (a >>> shamt)
      | 0x10 => writeRd inst (a.sshiftRight shamt)
      | _ => throw .illegalInstruction
  | 0x6 => writeRd inst (a ||| imm)
  | 0x7 => writeRd inst (a &&& imm)
  | _ => throw .illegalInstruction

/-- Opcode 0x17. -/
def execAuipc : Exec Cpu Unit := do
  writeRd inst ((← get).pc + immU inst - 4)

/-- Opcode 0x1b. -/
def execOpImm32 : Exec Cpu Unit := do
  let a ← reg (rs1Of inst)
  let imm := ((int32 inst).sshiftRight 20).signExtend 64
  let shamt := (imm &&& 0x1f).toNat
  match (funct3Of inst).toNat with
  | 0x0 => writeRd inst ((int32 (a + imm)).signExtend 64)
  | 0x1 => writeRd inst ((int32 (a <<< shamt)).signExtend 64)
  | 0x5 =>
      match (funct7Of inst).toNat with
      | 0x00 => writeRd inst ((int32 a >>> shamt).signExtend 64)
      | 0x20 => writeRd inst (((int32 a).sshiftRight shamt).signExtend 64)
      | _ => throw .illegalInstruction
  | _ => throw .illegalInstruction

/-- Opcode 0x23. -/
def execStore : Exec Cpu Unit := do
  let addr := (← reg (rs1Of inst)) + immS inst
  let value ← reg (rs2Of inst)
  match (funct3Of inst).toNat with
  | 0x0 => store addr 8 value
  | 0x1 => store addr 16 value
  | 0x2 => store addr 32 value
  | 0x3 => store addr 64 value
  | _ => throw .illegalInstruction

/-- An atomic instruction of this size, which stores what `f` gives for the loaded value and the
operand. -/
def amo (size : Nat) (f : Word → Word → Word) : Exec Cpu Unit := do
  let t ← load (← reg (rs1Of inst)) size
  store (← reg (rs1Of inst)) size (f t (← reg (rs2Of inst)))
  writeRd inst t

/-- Opcode 0x2f. -/
def execAmo : Exec Cpu Unit :=
  let funct3 := funct3Of inst
  let funct5 := (funct7Of inst &&& 0x7c) >>> 2
  if funct3 = 0x2 ∧ funct5 = 0x00 then amo inst 32 fun t b => t + b
  else if funct3 = 0x3 ∧ funct5 = 0x00 then amo inst 64 fun t b => t + b
  else if funct3 = 0x2 ∧ funct5 = 0x01 then amo inst 32 fun _ b => b
  else if funct3 = 0x3 ∧ funct5 = 0x01 then amo inst 64 fun _ b => b
  else throw .illegalInstruction

/-- Opcode 0x33. -/
def execOp : Exec Cpu Unit := do
  let a ← reg (rs1Of inst)
  let b ← reg (rs2Of inst)
  let shamt := (b &&& 0x3f).toNat
  let funct3 := funct3Of inst
  let funct7 := funct7Of inst
  if funct3 = 0x0 ∧ funct7 = 0x00 then writeRd inst (a + b)
  else if funct3 = 0x0 ∧ funct7 = 0x01 then writeRd inst (a * b)
  else if funct3 = 0x0 ∧ funct7 = 0x20 then writeRd inst (a - b)
  else if funct3 = 0x1 ∧ funct7 = 0x00 then writeRd inst (a <<< shamt)
  else if funct3 = 0x2 ∧ funct7 = 0x00 then writeRd inst (ofBool (a.slt b))
  else if funct3 = 0x3 ∧ funct7 = 0x00 then writeRd inst (ofBool (a.ult b))
  else if funct3 = 0x4 ∧ funct7 = 0x00 then writeRd inst (a ^^^ b)
  else if funct3 = 0x5 ∧ funct7 = 0x00 then writeRd inst (a >>> shamt)
  else if funct3 = 0x5 ∧ funct7 = 0x20 then writeRd inst (a.sshiftRight shamt)
  else if funct3 = 0x6 ∧ funct7 = 0x00 then writeRd inst (a ||| b)
  else if funct3 = 0x7 ∧ funct7 = 0x00 then writeRd inst (a &&& b)
  else throw .illegalInstruction

/-- Opcode 0x37. -/
def execLui : Exec Cpu Unit := writeRd inst (immU inst)

/-- Opcode 0x3b. -/
def execOp32 : Exec Cpu Unit := do
  let a ← reg (rs1Of inst)
  let b ← reg (rs2Of inst)
  let shamt := (b &&& 0x1f).toNat
  let funct3 := funct3Of inst
  let funct7 := funct7Of inst
  if funct3 = 0x0 ∧ funct7 = 0x00 then writeRd inst ((int32 (a + b)).signExtend 64)
  else if funct3 = 0x0 ∧ funct7 = 0x20 then writeRd inst ((int32 (a - b)).signExtend 64)
  else if funct3 = 0x1 ∧ funct7 = 0x00 then writeRd inst ((int32 a <<< shamt).signExtend 64)
  else if funct3 = 0x5 ∧ funct7 = 0x00 then writeRd inst ((int32 a >>> shamt).signExtend 64)
  else if funct3 = 0x5 ∧ funct7 = 0x01 then writeRd inst (if b = 0 then -1 else a / b)
  else if funct3 = 0x5 ∧ funct7 = 0x20 then
    writeRd inst (((int32 a).sshiftRight shamt).signExtend 64)
  else if funct3 = 0x7 ∧ funct7 = 0x01 then
    if b = 0 then writeRd inst a
    else if int32 b = 0 then Exec.crash .divisionByZero
    else writeRd inst ((int32 a % int32 b).signExtend 64)
  else throw .illegalInstruction

/-- The condition of a branch, where there is one with this `funct3`. -/
def branchTaken (funct3 : Nat) (a b : Word) : Option Bool :=
  match funct3 with
  | 0x0 => some (a == b)
  | 0x1 => some (a != b)
  | 0x4 => some (a.slt b)
  | 0x5 => some (b.sle a)
  | 0x6 => some (a.ult b)
  | 0x7 => some (b.ule a)
  | _ => none

/-- Opcode 0x63. -/
def execBranch : Exec Cpu Unit := do
  match branchTaken (funct3Of inst).toNat (← reg (rs1Of inst)) (← reg (rs2Of inst)) with
  | some true => modify fun cpu => { cpu with pc := cpu.pc + (immB inst - 4) }
  | some false => return
  | none => throw .illegalInstruction

/-- Opcode 0x67. -/
def execJalr : Exec Cpu Unit := do
  let t := (← get).pc
  let target := ((← reg (rs1Of inst)) + immI inst) &&& ~~~1
  modify fun cpu => { cpu with pc := target }
  writeRd inst t

/-- Opcode 0x6f. -/
def execJal : Exec Cpu Unit := do
  writeRd inst (← get).pc
  modify fun cpu => { cpu with pc := cpu.pc + (immJ inst - 4) }

/-- `(cpu_load_csr(cpu, addr) >> n) & 1`. -/
def csrBit (cpu : Cpu) (addr : BitVec 12) (n : Nat) : Bool := (cpu.loadCsr addr >>> n) &&& 1 ≠ 0

/-- `cpu_store_csr(cpu, addr, cpu_load_csr(cpu, addr) | mask)`. -/
def setBits (cpu : Cpu) (addr : BitVec 12) (mask : Word) : Cpu :=
  cpu.storeCsr addr (cpu.loadCsr addr ||| mask)

/-- `cpu_store_csr(cpu, addr, cpu_load_csr(cpu, addr) & ~mask)`. -/
def clearBits (cpu : Cpu) (addr : BitVec 12) (mask : Word) : Cpu :=
  cpu.storeCsr addr (cpu.loadCsr addr &&& ~~~mask)

/-- A bit of a control register gets the value of another one. -/
def copyBit (cpu : Cpu) (addr : BitVec 12) (source target : Nat) : Cpu :=
  if cpu.csrBit addr source then cpu.setBits addr ((1 : Word) <<< target)
  else cpu.clearBits addr ((1 : Word) <<< target)

/-- `sret`. -/
def sret (cpu : Cpu) : Cpu :=
  let cpu := cpu.goTo (if cpu.csrBit SSTATUS 8 then .supervisor else .user) (cpu.loadCsr SEPC)
  let cpu := cpu.copyBit SSTATUS 5 1
  let cpu := cpu.setBits SSTATUS ((1 : Word) <<< 5)
  cpu.clearBits SSTATUS ((1 : Word) <<< 8)

/-- The mode that `mret` finds in the previous-mode field. -/
def mpp (cpu : Cpu) : Mode :=
  let mpp := (cpu.loadCsr MSTATUS >>> 11) &&& 3
  if mpp = 2 then .machine else if mpp = 1 then .supervisor else .user

/-- `mret`. -/
def mret (cpu : Cpu) : Cpu :=
  let cpu := cpu.goTo cpu.mpp (cpu.loadCsr MEPC)
  let cpu := cpu.copyBit MSTATUS 7 3
  let cpu := cpu.setBits MSTATUS ((1 : Word) <<< 7)
  cpu.clearBits MSTATUS ((3 : Word) <<< 11)

/-- `8 + cpu->mode`. -/
def ecall : Exec Cpu Unit := do
  match (← get).mode with
  | .user => throw .ecallFromUMode
  | .supervisor => throw .ecallFromSMode
  | .machine => throw .ecallFromMMode

/-- An instruction that reads a control register, stores what `f` gives for the old value and the
operand, and writes the old value to `rd`. -/
def csrOp (addr : BitVec 12) (operand : Exec Cpu Word) (f : Word → Word → Word) : Exec Cpu Unit := do
  let t := (← get).loadCsr addr
  let a ← operand
  modify fun cpu => cpu.storeCsr addr (f t a)
  writeRd inst t
  modify fun cpu => cpu.updatePaging addr

/-- Opcode 0x73. -/
def execSystem : Exec Cpu Unit :=
  let addr : BitVec 12 := (inst >>> 20).setWidth 12
  let rs2 := rs2Of inst
  let funct7 := funct7Of inst
  let rs1 : Exec Cpu Word := reg (rs1Of inst)
  let zimm : Exec Cpu Word := return (rs1Of inst).setWidth 64
  match (funct3Of inst).toNat with
  | 0x0 =>
      if rs2 = 0x0 ∧ funct7 = 0x0 then ecall
      else if rs2 = 0x1 ∧ funct7 = 0x0 then throw .breakpoint
      else if rs2 = 0x2 ∧ funct7 = 0x8 then modify sret
      else if rs2 = 0x2 ∧ funct7 = 0x18 then modify mret
      else if funct7 = 0x9 then return
      else throw .illegalInstruction
  | 0x1 => csrOp inst addr rs1 fun _ a => a
  | 0x2 => csrOp inst addr rs1 fun t a => t ||| a
  | 0x3 => csrOp inst addr rs1 fun t a => t &&& ~~~a
  | 0x5 => csrOp inst addr zimm fun _ a => a
  | 0x6 => csrOp inst addr zimm fun t a => t ||| a
  | 0x7 => csrOp inst addr zimm fun t a => t &&& ~~~a
  | _ => throw .illegalInstruction

/-- `cpu_execute`. -/
def execute : Exec Cpu Unit := do
  modify fun cpu => cpu.setReg 0 0
  match (inst &&& 0x7f).toNat with
  | 0x03 => execLoad inst
  | 0x0f => execFence inst
  | 0x13 => execOpImm inst
  | 0x17 => execAuipc inst
  | 0x1b => execOpImm32 inst
  | 0x23 => execStore inst
  | 0x2f => execAmo inst
  | 0x33 => execOp inst
  | 0x37 => execLui inst
  | 0x3b => execOp32 inst
  | 0x63 => execBranch inst
  | 0x67 => execJalr inst
  | 0x6f => execJal inst
  | 0x73 => execSystem inst
  | _ => throw .illegalInstruction

end Execute

end Cpu

end Riscv2os.Semu
