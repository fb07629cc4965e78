import Riscv2os.Semu.Access
import Riscv2os.Semu.BaseInstructions

/-!
# The 32-bit forms of the machine emulator

`cpu_execute` for the groups OP-32 and OP-IMM-32 and for the atomic instructions on words, against instructions
that see nothing but the lower halves of their operands.
-/

namespace Riscv2os.Semu

open Riscv2os.Std
open RiscV (Reg RegOp ImmOp AmoOp WordOp)

namespace Cpu

variable {cpu : Cpu} {inst : BitVec 32} {a b t : Word}

/-- The 32-bit forms that `cpu_execute` knows. -/
def knows : WordOp → Bool
  | .register op => op ∈ [.add, .sub, .sll, .srl, .sra, .divu, .remu]
  | .immediate op => op.onWords
  | .atomic op => op ∈ [.amoadd, .amoswap]

/-- The words that `cpu_execute` takes for the instruction. It does not look at the upper bits of the shift amount
of `slliw`. -/
def Takes (op : WordOp) (inst : BitVec 32) : Prop :=
  knows op ∧
    match op with
    | .immediate .slli => RiscV.opcode inst = RiscV.OP_IMM_32 ∧ RiscV.funct3 inst = 1
    | op => op.Encodes inst

/-- The instruction is known from its encoding. -/
theorem Takes.of_encodes {op : WordOp} (known : knows op) (encodes : op.Encodes inst) : Takes op inst := by
  refine ⟨known, ?_⟩
  split
  · exact ⟨encodes.2.1, encodes.2.2.1⟩
  · exact encodes

/-! ## What the instructions are to do -/

/-- Load a word, store one in its place, and write a register. -/
def exchange (addr : Word) (rd : Reg) (stored read : Word → Word) : Exec Cpu Unit := do
  let t ← load addr 32
  store addr 32 (stored t)
  modify fun cpu => cpu.setReg rd (read t)

/-- The instruction on the lower halves of its operands. -/
def specified (op : WordOp) (inst : BitVec 32) : Exec Cpu Unit := do
  modify fun cpu => cpu.setReg 0 0
  let x := (← get).regs
  let rd := RiscV.rd inst
  let a := x (RiscV.rs1 inst)
  let b := x (RiscV.rs2 inst)
  match op with
  | .register op => modify fun cpu => cpu.setReg rd (op.resultWord a b)
  | .immediate op => modify fun cpu => cpu.setReg rd (op.resultWord inst a)
  | .atomic op => exchange a rd (fun t => (op.update (t.setWidth 32) (b.setWidth 32)).setWidth 64) word

/-- The registers of which the instruction takes a word. The address of an atomic instruction has 64 bits. -/
def IsOperand (op : WordOp) (inst : BitVec 32) (r : Reg) : Prop :=
  match op with
  | .register _ => r = RiscV.rs1 inst ∨ r = RiscV.rs2 inst
  | .immediate _ => r = RiscV.rs1 inst
  | .atomic _ => r = RiscV.rs2 inst ∧ r ≠ RiscV.rs1 inst

/-- Registers that differ in the upper halves of the operands only. -/
def SameWords (op : WordOp) (inst : BitVec 32) (x y : Reg → Word) : Prop :=
  ∀ r, (y r).setWidth 32 = (x r).setWidth 32 ∧ (¬ IsOperand op inst r → y r = x r)

/-- The processor with other registers. -/
def withRegs (cpu : Cpu) (x : Reg → Word) : Cpu := { cpu with regs := x }

/-- How an instruction ends, apart from `x0`, which the next one clears. -/
def observed (ran : Except Crash (Except Exception Unit × Cpu)) : Except Crash (Except Exception Unit × Cpu) :=
  ran.map fun reached => (reached.1, reached.2.setReg 0 0)

/-- The instruction works on words: whatever is in the upper halves of its operands, it ends as specified, and
without a division by zero on the host. -/
structure WorksOnWords (op : WordOp) (inst : BitVec 32) (cpu : Cpu) : Prop where
  result : ∀ x, SameWords op inst cpu.regs x →
    observed ((execute (inst.setWidth 64)).run (cpu.withRegs x)) =
      observed ((specified op inst).run (cpu.withRegs x))
  divides : ∀ x, SameWords op inst cpu.regs x →
    (execute (inst.setWidth 64)).run (cpu.withRegs x) ≠ .error .divisionByZero

/-! ## What they do -/

/-- The shift amounts of the 32-bit forms. -/
theorem shamt32_eq (b : Word) : (b &&& 0x1f).toNat = (b.setWidth 32).toNat % 32 := by
  rw [BitVec.toNat_and, BitVec.toNat_setWidth, Nat.mod_mod_of_dvd _ (by decide : 32 ∣ 2 ^ 32)]
  exact Nat.and_two_pow_sub_one_eq_mod b.toNat 5

theorem int32_add (a b : Word) : int32 (a + b) = int32 a + int32 b := BitVec.setWidth_add a b (by decide)

theorem int32_sub (a b : Word) : int32 (a - b) = int32 a - int32 b := by
  rw [BitVec.sub_eq_add_neg, int32_add, BitVec.sub_eq_add_neg]
  exact congrArg (int32 a + ·) (BitVec.setWidth_neg_of_le (by decide))

/-- The case 0x3b for these operands. The two divisions test the whole divisor. -/
def op32Value (op : RegOp) (a b : Word) : Except Crash Word :=
  match op with
  | .divu => .ok (if b = 0 then -1 else a / b)
  | .remu =>
      if b = 0 then .ok a
      else if int32 b = 0 then .error .divisionByZero
      else .ok (RegOp.remu.resultWord a b)
  | op => .ok (op.resultWord a b)

/-- The branch of `remuw`. -/
theorem remuw_run {w : Word} :
    (if b = 0 then writeRd w a
      else if int32 b = 0 then Exec.crash .divisionByZero
      else writeRd w ((int32 a % int32 b).signExtend 64) : Exec Cpu Unit).run cpu =
    (op32Value .remu a b).map fun value => (.ok (), cpu.setReg (rdOf w) value) := by
  rw [op32Value]
  by_cases zero : b = 0
  · rw [if_pos zero, if_pos zero]
    rfl
  by_cases low : int32 b = 0
  · rw [if_neg zero, if_pos low, if_neg zero, if_pos low]
    rfl
  · have value : RegOp.remu.resultWord a b = (int32 a % int32 b).signExtend 64 := by
      rw [RegOp.resultWord, RegOp.result, ← BitVec.umod_def]
      exact congrArg _ (if_neg low)
    rw [if_neg zero, if_neg low, if_neg zero, if_neg low, value]
    rfl

theorem execOp32_eq (op : RegOp) (known : knows (.register op)) (funct3 : RiscV.funct3 inst = op.funct3)
    (funct7 : RiscV.funct7 inst = op.funct7) : (execOp32 (inst.setWidth 64)).run cpu =
      (op32Value op (cpu.regs (RiscV.rs1 inst)) (cpu.regs (RiscV.rs2 inst))).map
        fun value => (.ok (), cpu.setReg (RiscV.rd inst) value) := by
  have f3 : funct3Of (inst.setWidth 64) = op.funct3.setWidth 64 := (funct3Of_eq inst).trans (by rw [funct3])
  have f7 : funct7Of (inst.setWidth 64) = op.funct7.setWidth 64 := (funct7Of_eq inst).trans (by rw [funct7])
  rw [← rdOf_eq, ← rs1Of_eq, ← rs2Of_eq]
  generalize a' : cpu.regs (rs1Of (inst.setWidth 64)) = a
  generalize b' : cpu.regs (rs2Of (inst.setWidth 64)) = b
  have readA : (reg (rs1Of (inst.setWidth 64))).run cpu = .ok (.ok a, cpu) := by
    rw [← a']
    rfl
  have readB : (reg (rs2Of (inst.setWidth 64))).run cpu = .ok (.ok b, cpu) := by
    rw [← b']
    rfl
  unfold execOp32
  rw [Exec.run_bind_ok readA, Exec.run_bind_ok readB, f3, f7]
  cases op
  case add =>
    have value : RegOp.add.resultWord a b = (int32 (a + b)).signExtend 64 := by
      rw [RegOp.resultWord, RegOp.result_add, int32_add]
      rfl
    have ran : op32Value .add a b = .ok _ := congrArg Except.ok value
    rw [ran]
    rfl
  case sub =>
    have value : RegOp.sub.resultWord a b = (int32 (a - b)).signExtend 64 := by
      rw [RegOp.resultWord, RegOp.result_sub, int32_sub]
      rfl
    have ran : op32Value .sub a b = .ok _ := congrArg Except.ok value
    rw [ran]
    rfl
  case sll =>
    have value : RegOp.sll.resultWord a b = (int32 a <<< (b &&& 0x1f).toNat).signExtend 64 := by
      rw [RegOp.resultWord, RegOp.result, shamt32_eq]
      rfl
    have ran : op32Value .sll a b = .ok _ := congrArg Except.ok value
    rw [ran]
    rfl
  case srl =>
    have value : RegOp.srl.resultWord a b = (int32 a >>> (b &&& 0x1f).toNat).signExtend 64 := by
      rw [RegOp.resultWord, RegOp.result_srl, shamt32_eq]
      rfl
    have ran : op32Value .srl a b = .ok _ := congrArg Except.ok value
    rw [ran]
    rfl
  case sra =>
    have value : RegOp.sra.resultWord a b = ((int32 a).sshiftRight (b &&& 0x1f).toNat).signExtend 64 := by
      rw [RegOp.resultWord, RegOp.result_sra, shamt32_eq]
      rfl
    have ran : op32Value .sra a b = .ok _ := congrArg Except.ok value
    rw [ran]
    rfl
  case divu => rfl
  case remu => exact remuw_run
  all_goals cases known

/-- The lower half of the immediate. -/
theorem int32_imm (inst : BitVec 32) :
    int32 (((int32 (inst.setWidth 64)).sshiftRight 20).signExtend 64) = RiscV.immI inst 32 := by
  apply BitVec.eq_of_getLsbD_eq
  intro i small
  interval_cases i <;>
    simp only [int32, RiscV.immI, BitVec.getLsbD_signExtend, BitVec.getLsbD_sshiftRight,
      BitVec.msb_eq_getLsbD_last, BitVec.getLsbD_setWidth, BitVec.getLsbD_extractLsb'] <;>
    simp

/-- The shift amount of the immediate. -/
theorem shamt32_imm (inst : BitVec 32) :
    ((((int32 (inst.setWidth 64)).sshiftRight 20).signExtend 64) &&& 0x1f).toNat =
      ((RiscV.rs2 inst).setWidth 32).toNat % 32 := by
  have low : RiscV.immI inst 32 &&& 0x1f = (RiscV.rs2 inst).setWidth 32 := by
    apply BitVec.eq_of_getLsbD_eq
    intro i small
    interval_cases i <;>
      simp only [RiscV.immI, RiscV.rs2, BitVec.getLsbD_signExtend, BitVec.getLsbD_setWidth, BitVec.getLsbD_and,
        BitVec.getLsbD_extractLsb'] <;>
      simp
  have masked : (RiscV.immI inst 32).toNat % 32 = ((RiscV.rs2 inst).setWidth 32).toNat := by
    rw [← low, BitVec.toNat_and]
    exact (Nat.and_two_pow_sub_one_eq_mod _ 5).symm
  have imm := int32_imm inst
  unfold int32 at imm ⊢
  rw [shamt32_eq, imm, ← masked, Nat.mod_mod]

/-- The two right shifts of the case 0x1b. -/
theorem shiftRight32_run {w : Word} {shamt : Nat} (arithmetic : Bool)
    (found : (funct7Of w).toNat = if arithmetic then 32 else 0) :
    (match (funct7Of w).toNat with
      | 0x00 => writeRd w ((int32 a >>> shamt).signExtend 64)
      | 0x20 => writeRd w (((int32 a).sshiftRight shamt).signExtend 64)
      | _ => throw .illegalInstruction : Exec Cpu Unit).run cpu =
    .ok (.ok (), cpu.setReg (rdOf w)
      ((if arithmetic then (int32 a).sshiftRight shamt else int32 a >>> shamt).signExtend 64)) := by
  rw [found]
  cases arithmetic <;> rfl

/-- The case 0x1b. -/
theorem execOpImm32_eq (op : ImmOp) (takes : Takes (.immediate op) inst) :
    (execOpImm32 (inst.setWidth 64)).run cpu =
      .ok (.ok (), cpu.setReg (RiscV.rd inst) (op.resultWord inst (cpu.regs (RiscV.rs1 inst)))) := by
  have f3 : funct3Of (inst.setWidth 64) = op.funct3.setWidth 64 := by
    rw [funct3Of_eq]
    cases op with
    | slli => rw [takes.2.2]; rfl
    | addi | srli | srai => rw [takes.2.2.2.1]
    | _ => cases takes.1
  have f7 (shift : op = .srli ∨ op = .srai) : funct7Of (inst.setWidth 64) = op.regOp.funct7.setWidth 64 := by
    rw [funct7Of_eq]
    rcases shift with rfl | rfl <;> rw [takes.2.2.2.2 rfl]
  rw [← rdOf_eq, ← rs1Of_eq]
  generalize a' : cpu.regs (rs1Of (inst.setWidth 64)) = a
  have readA : (reg (rs1Of (inst.setWidth 64))).run cpu = .ok (.ok a, cpu) := by
    rw [← a']
    rfl
  have low := int32_imm inst
  have amount := shamt32_imm inst
  unfold execOpImm32
  rw [Exec.run_bind_ok readA, f3]
  generalize ((int32 (inst.setWidth 64)).sshiftRight 20).signExtend 64 = imm at low amount ⊢
  cases op
  case addi =>
    have value : ImmOp.addi.resultWord inst a = (int32 (a + imm)).signExtend 64 := by
      rw [int32_add, low]
      exact congrArg (BitVec.signExtend 64) (RegOp.result_add (a.setWidth 32) _)
    rw [value]
    rfl
  case slli =>
    have value : ImmOp.slli.resultWord inst a = (int32 (a <<< (imm &&& 0x1f).toNat)).signExtend 64 := by
      rw [amount, int32, BitVec.setWidth_shiftLeft_of_le (by decide)]
      rfl
    rw [value]
    rfl
  case srli =>
    have value : ImmOp.srli.resultWord inst a = (int32 a >>> (imm &&& 0x1f).toNat).signExtend 64 := by
      rw [amount]
      exact congrArg (BitVec.signExtend 64) (RegOp.result_srl (a.setWidth 32) _)
    rw [value]
    exact shiftRight32_run false (congrArg BitVec.toNat (f7 (.inl rfl)))
  case srai =>
    have value : ImmOp.srai.resultWord inst a = ((int32 a).sshiftRight (imm &&& 0x1f).toNat).signExtend 64 := by
      rw [amount]
      exact congrArg (BitVec.signExtend 64) (RegOp.result_sra (a.setWidth 32) _)
    rw [value]
    exact shiftRight32_run true (congrArg BitVec.toNat (f7 (.inr rfl)))
  all_goals cases takes.1

/-! ### Atomic instructions -/

/-- The field `funct5`. -/
theorem funct5_eq (inst : BitVec 32) : (funct7Of (inst.setWidth 64) &&& 0x7c) >>> 2 =
    (inst.extractLsb' 27 5).setWidth 64 := by
  rw [funct7Of_eq]
  apply BitVec.eq_of_getLsbD_eq
  intro i small
  interval_cases i <;>
    simp only [RiscV.funct7, BitVec.getLsbD_setWidth, BitVec.getLsbD_ushiftRight, BitVec.getLsbD_and,
      BitVec.getLsbD_extractLsb'] <;>
    simp

/-- An atomic instruction is an exchange. -/
theorem amo_eq (w : Word) (f : Word → Word → Word) : (amo w 32 f).run cpu =
    (exchange (cpu.regs (rs1Of w)) (rdOf w) (fun t => f t (cpu.regs (rs2Of w))) id).run cpu := by
  unfold amo exchange
  rw [Exec.run_bind_ok (reg_run ..)]
  cases loaded : (load (cpu.regs (rs1Of w)) 32).run cpu with
  | error c => rw [Exec.run_bind_crash loaded, Exec.run_bind_crash loaded]
  | ok reached =>
      obtain ⟨result, cpu'⟩ := reached
      cases result with
      | error e => rw [Exec.run_bind_error loaded, Exec.run_bind_error loaded]
      | ok t =>
          rw [Exec.run_bind_ok loaded, Exec.run_bind_ok loaded, load_word_same loaded,
            Exec.run_bind_ok (reg_run ..), Exec.run_bind_ok (reg_run ..)]
          rfl

/-- The case 0x2f. -/
theorem execAmo_eq (op : AmoOp) (known : knows (.atomic op)) (funct3 : RiscV.funct3 inst = 2)
    (funct5 : inst.extractLsb' 27 5 = op.funct5) : (execAmo (inst.setWidth 64)).run cpu =
      (exchange (cpu.regs (RiscV.rs1 inst)) (RiscV.rd inst) (fun t => op.update t (cpu.regs (RiscV.rs2 inst)))
        id).run cpu := by
  have f3 : funct3Of (inst.setWidth 64) = 2 := (funct3Of_eq inst).trans (by rw [funct3]; rfl)
  have f5 : (funct7Of (inst.setWidth 64) &&& 0x7c) >>> 2 = op.funct5.setWidth 64 :=
    (funct5_eq inst).trans (by rw [funct5])
  rw [← rdOf_eq, ← rs1Of_eq, ← rs2Of_eq]
  unfold execAmo
  rw [f3, f5]
  cases op
  case amoadd => exact amo_eq _ _
  case amoswap => exact amo_eq _ _
  all_goals cases known

variable {addr pa : Word}

/-- Where no word can be loaded, an exchange ends in the same way whatever it is to store and read. -/
theorem exchange_missing (missing : cpu.wordAt addr = none) :
    ∃ outcome, outcome ≠ .error .divisionByZero ∧
      ∀ rd stored read, (exchange addr rd stored read).run cpu = outcome := by
  cases loaded : (load addr 32).run cpu with
  | error c =>
      have crash : c = .outOfBounds := (load_keeps Bus.load_keeps addr 32).crash loaded
      rw [crash] at loaded
      exact ⟨.error .outOfBounds, nofun, fun rd stored read => Exec.run_bind_crash loaded⟩
  | ok reached =>
      obtain ⟨result, cpu'⟩ := reached
      cases result with
      | error e => exact ⟨.ok (.error e, cpu'), nofun, fun rd stored read => Exec.run_bind_error loaded⟩
      | ok t =>
          obtain ⟨pa, found⟩ := wordAt_of_load loaded
          rw [missing] at found
          cases found

/-- Where a word can be loaded, an exchange succeeds. -/
theorem exchange_found (found : cpu.wordAt addr = some (pa, t)) :
    ∃ after : Word → Bus, (∀ rd stored read, (exchange addr rd stored read).run cpu =
        .ok (.ok (), ({ cpu with bus := after (stored t) } : Cpu).setReg rd (read t))) ∧
      ∀ value value', value.setWidth 32 = value'.setWidth 32 →
        (after value = after value' ↔ (pa ∈ plicRegisters → value = value')) := by
  obtain ⟨placed, loaded⟩ := wordAt_found found
  obtain ⟨after, stores, same⟩ := Bus.store_word loaded
  refine ⟨after, fun rd stored read => ?_, same⟩
  have storing : (store addr 32 (stored t)).run cpu = .ok (.ok (), { cpu with bus := after (stored t) }) := by
    unfold store
    rw [Exec.run_bind_ok (translate_place placed _)]
    exact onBus_ok.mpr ⟨_, stores _, rfl⟩
  unfold exchange
  rw [Exec.run_bind_ok (load_wordAt found), Exec.run_bind_ok storing]
  rfl

/-! ### Words that are no instructions -/

/-- A field is known from the word that holds it. -/
theorem field_inj {n : Nat} (small : n ≤ 64) {x y : BitVec n} (same : x.setWidth 64 = y.setWidth 64) : x = y := by
  have back := congrArg (BitVec.setWidth n) same
  rwa [BitVec.setWidth_setWidth_of_le x small, BitVec.setWidth_setWidth_of_le y small, BitVec.setWidth_eq,
    BitVec.setWidth_eq] at back

/-- The case 0x3b for a word that is no instruction of the group. -/
theorem execOp32_refuses (opcode : RiscV.opcode inst = RiscV.OP_32) (none : ∀ op, ¬ Takes (.register op) inst) :
    (execOp32 (inst.setWidth 64)).run cpu = .ok (.error .illegalInstruction, cpu) := by
  have other (op : RegOp) (known : knows (.register op)) (words : op.onWords) :
      ¬ (funct3Of (inst.setWidth 64) = op.funct3.setWidth 64 ∧
        funct7Of (inst.setWidth 64) = op.funct7.setWidth 64) := by
    rintro ⟨funct3, funct7⟩
    rw [funct3Of_eq] at funct3
    rw [funct7Of_eq] at funct7
    exact none op ⟨known, words, opcode, field_inj (by decide) funct3, field_inj (by decide) funct7⟩
  unfold execOp32
  rw [Exec.run_bind_ok (reg_run ..), Exec.run_bind_ok (reg_run ..)]
  have add : ¬ (funct3Of (inst.setWidth 64) = 0x0 ∧ funct7Of (inst.setWidth 64) = 0x00) := other .add rfl rfl
  have sub : ¬ (funct3Of (inst.setWidth 64) = 0x0 ∧ funct7Of (inst.setWidth 64) = 0x20) := other .sub rfl rfl
  have sll : ¬ (funct3Of (inst.setWidth 64) = 0x1 ∧ funct7Of (inst.setWidth 64) = 0x00) := other .sll rfl rfl
  have srl : ¬ (funct3Of (inst.setWidth 64) = 0x5 ∧ funct7Of (inst.setWidth 64) = 0x00) := other .srl rfl rfl
  have divu : ¬ (funct3Of (inst.setWidth 64) = 0x5 ∧ funct7Of (inst.setWidth 64) = 0x01) := other .divu rfl rfl
  have sra : ¬ (funct3Of (inst.setWidth 64) = 0x5 ∧ funct7Of (inst.setWidth 64) = 0x20) := other .sra rfl rfl
  have remu : ¬ (funct3Of (inst.setWidth 64) = 0x7 ∧ funct7Of (inst.setWidth 64) = 0x01) := other .remu rfl rfl
  simp only [add, sub, sll, srl, divu, sra, remu, if_false]
  rfl

/-- The case 0x1b for a word that is no instruction of the group. -/
theorem execOpImm32_refuses (opcode : RiscV.opcode inst = RiscV.OP_IMM_32)
    (none : ∀ op, ¬ Takes (.immediate op) inst) :
    (execOpImm32 (inst.setWidth 64)).run cpu = .ok (.error .illegalInstruction, cpu) := by
  have funct3 {code : BitVec 3} (found : (funct3Of (inst.setWidth 64)).toNat = (code.setWidth 64 : Word).toNat) :
      RiscV.funct3 inst = code := by
    rw [funct3Of_eq] at found
    exact field_inj (by decide) (BitVec.eq_of_toNat_eq found)
  have funct7 {code : BitVec 7} (found : (funct7Of (inst.setWidth 64)).toNat = (code.setWidth 64 : Word).toNat) :
      RiscV.funct7 inst = code := by
    rw [funct7Of_eq] at found
    exact field_inj (by decide) (BitVec.eq_of_toNat_eq found)
  unfold execOpImm32
  rw [Exec.run_bind_ok (reg_run ..)]
  split
  · next found => exact absurd ⟨rfl, rfl, opcode, funct3 found, nofun⟩ (none .addi)
  · next found => exact absurd ⟨rfl, opcode, funct3 found⟩ (none .slli)
  · next found =>
      split
      · next logical => exact absurd ⟨rfl, rfl, opcode, funct3 found, fun _ => funct7 logical⟩ (none .srli)
      · next arithmetic => exact absurd ⟨rfl, rfl, opcode, funct3 found, fun _ => funct7 arithmetic⟩ (none .srai)
      · rfl
  · rfl

/-- The case 0x2f for a word that is no instruction of the group. -/
theorem execAmo_refuses (opcode : RiscV.opcode inst = RiscV.AMO) (funct3 : RiscV.funct3 inst = 2)
    (none : ∀ op, ¬ Takes (.atomic op) inst) :
    (execAmo (inst.setWidth 64)).run cpu = .ok (.error .illegalInstruction, cpu) := by
  have f3 : funct3Of (inst.setWidth 64) = 2 := (funct3Of_eq inst).trans (by rw [funct3]; rfl)
  have other (op : AmoOp) (known : knows (.atomic op)) :
      (funct7Of (inst.setWidth 64) &&& 0x7c) >>> 2 ≠ op.funct5.setWidth 64 := by
    intro funct5
    rw [funct5_eq] at funct5
    exact none op ⟨known, opcode, funct3, field_inj (by decide) funct5⟩
  have add : ¬ (funct7Of (inst.setWidth 64) &&& 0x7c) >>> 2 = 0x00 := other .amoadd rfl
  have swap : ¬ (funct7Of (inst.setWidth 64) &&& 0x7c) >>> 2 = 0x01 := other .amoswap rfl
  unfold execAmo
  simp only [f3, add, swap, and_false, if_false]
  rfl

/-- A word of these groups for which `cpu_execute` takes no instruction is an illegal instruction. -/
theorem execute_refuses (cpu : Cpu) (inst : BitVec 32) (group : RiscV.opcode inst = RiscV.OP_32 ∨
    RiscV.opcode inst = RiscV.OP_IMM_32 ∨ RiscV.opcode inst = RiscV.AMO ∧ RiscV.funct3 inst = 2)
    (none : ∀ op, ¬ Takes op inst) :
    (execute (inst.setWidth 64)).run cpu = .ok (.error .illegalInstruction, cpu.setReg 0 0) := by
  rcases group with opcode | opcode | ⟨opcode, funct3⟩
  · exact (execute_group cpu opcode).trans (execOp32_refuses opcode fun op => none (.register op))
  · exact (execute_group cpu opcode).trans (execOpImm32_refuses opcode fun op => none (.immediate op))
  · exact (execute_group cpu opcode).trans (execAmo_refuses opcode funct3 fun op => none (.atomic op))

/-! ## When they do what they are to do -/

/-- The operands, and for an atomic instruction the word in memory, with which the upper halves do not matter. -/
def Fits (op : WordOp) (inst : BitVec 32) (cpu : Cpu) : Prop :=
  let rd := RiscV.rd inst
  let rs1 := RiscV.rs1 inst
  let rs2 := RiscV.rs2 inst
  match op with
  | .register .divu => rd = 0 ∨ rs2 = 0 ∨ (rs1 = 0 ∨ rs1 = rs2) ∧ int32 (cpu.visible rs2) ≠ 0
  | .register .remu => int32 (cpu.visible rs2) ≠ 0 ∨ rs2 = 0 ∧ (rs1 = 0 ∨ rd = 0)
  | .register _ | .immediate _ => True
  | .atomic op => ∀ pa t, cpu.wordAt (cpu.visible rs1) = some (pa, t) →
      (rd = 0 ∨ t = word t) ∧
        (pa ∈ plicRegisters → (rs2 = 0 ∨ rs2 = rs1) ∧ (op.update t (cpu.visible rs2)).toNat < 2 ^ 32)

/-- Two ends of an instruction look the same. -/
theorem observed_setReg {rd : Reg} {value value' : Word} {bus bus' : Bus} :
    observed (.ok (.ok (), ({ cpu with bus := bus } : Cpu).setReg rd value)) =
        observed (.ok (.ok (), ({ cpu with bus := bus' } : Cpu).setReg rd value')) ↔
      bus = bus' ∧ (rd = 0 ∨ value = value') := by
  constructor
  · intro same
    have cpus := (Prod.mk.inj (Except.ok.inj same)).2
    have registers := congrArg Cpu.regs cpus
    refine ⟨congrArg Cpu.bus cpus, ?_⟩
    have writes : RiscV.writeReg cpu.visible rd value = RiscV.writeReg cpu.visible rd value' := by
      rw [← visible_setReg, ← visible_setReg]
      exact registers
    exact (RiscV.writeReg_congr _).mp writes
  · rintro ⟨rfl, zero | rfl⟩
    · have registers : (({ cpu with bus := bus } : Cpu).setReg rd value).visible =
          (({ cpu with bus := bus } : Cpu).setReg rd value').visible := by
        rw [visible_setReg, visible_setReg]
        exact (RiscV.writeReg_congr _).mpr (.inl zero)
      exact congrArg (fun x => Except.ok (Except.ok (), { cpu with bus := bus, regs := x })) registers
    · rfl

theorem observed_write {rd : Reg} {value value' : Word} :
    observed (.ok (.ok (), cpu.setReg rd value)) = observed (.ok (.ok (), cpu.setReg rd value')) ↔
      rd = 0 ∨ value = value' :=
  (@observed_setReg cpu rd value value' cpu.bus cpu.bus).trans (and_iff_right rfl)

/-- The 32-bit forms that work on registers, by the values that they write. -/
theorem worksOnWords_registers {op : WordOp} (value : (Reg → Word) → Except Crash Word)
    (result : (Reg → Word) → Word)
    (executes : ∀ cpu : Cpu, (execute (inst.setWidth 64)).run cpu =
      (value cpu.visible).map fun value => (.ok (), (cpu.setReg 0 0).setReg (RiscV.rd inst) value))
    (specifies : ∀ cpu : Cpu, (specified op inst).run cpu =
      .ok (.ok (), (cpu.setReg 0 0).setReg (RiscV.rd inst) (result cpu.visible))) :
    WorksOnWords op inst cpu ↔ ∀ x, SameWords op inst cpu.regs x →
      ∃ v, value (cpu.withRegs x).visible = .ok v ∧
        (RiscV.rd inst = 0 ∨ v = result (cpu.withRegs x).visible) := by
  constructor
  · rintro ⟨same, divides⟩ x words
    have ends := same x words
    rw [executes, specifies] at ends
    cases found : value (cpu.withRegs x).visible with
    | error c =>
        rw [found] at ends
        cases ends
    | ok v =>
        rw [found] at ends
        exact ⟨v, rfl, observed_write.mp ends⟩
  · intro writes
    constructor
    · intro x words
      obtain ⟨v, found, right⟩ := writes x words
      rw [executes, specifies, found]
      exact observed_write.mpr right
    · intro x words crash
      obtain ⟨v, found, _⟩ := writes x words
      rw [executes, found] at crash
      cases crash

variable {op : WordOp} {r : Reg} {x : Reg → Word}

theorem visible_zero (cpu : Cpu) : cpu.visible 0 = 0 := Function.update_self 0 0 cpu.regs

theorem visible_of_ne (cpu : Cpu) (positive : r ≠ 0) : cpu.visible r = cpu.regs r :=
  Function.update_of_ne positive 0 cpu.regs

theorem SameWords.low (words : SameWords op inst cpu.regs x) (r : Reg) :
    int32 ((cpu.withRegs x).visible r) = int32 (cpu.visible r) := by
  by_cases zero : r = 0
  · rw [zero, visible_zero, visible_zero]
  · rw [visible_of_ne _ zero, visible_of_ne _ zero]
    exact (words r).1

/-- One operand is replaced by a number with the same lower half. -/
theorem SameWords.update (words : SameWords op inst cpu.regs x) (operand : IsOperand op inst r) (value : Word)
    (low : int32 value = int32 (cpu.regs r)) : SameWords op inst cpu.regs (Function.update x r value) := by
  intro r'
  by_cases same : r' = r
  · rw [same, Function.update_self]
    exact ⟨low, fun other => absurd operand other⟩
  · rw [Function.update_of_ne same]
    exact words r'

theorem SameWords.refl (op : WordOp) (inst : BitVec 32) (x : Reg → Word) : SameWords op inst x x :=
  fun _ => ⟨rfl, fun _ => rfl⟩

/-- The least number with this lower half. -/
theorem int32_setWidth (low : BitVec 32) : int32 (low.setWidth 64) = low :=
  BitVec.setWidth_setWidth_of_le low (by decide)

/-- The number with this lower half and all upper bits set. -/
theorem toNat_upper (low : BitVec 32) :
    (low.setWidth 64 + 0xffffffff00000000 : Word).toNat = low.toNat + (2 ^ 64 - 2 ^ 32) := by
  have small := low.isLt
  have upper : (0xffffffff00000000 : Word).toNat = 2 ^ 64 - 2 ^ 32 := rfl
  rw [BitVec.toNat_add, upper, BitVec.toNat_setWidth]
  omega

theorem int32_upper (low : BitVec 32) : int32 (low.setWidth 64 + 0xffffffff00000000) = low := by
  rw [int32_add, int32_setWidth]
  exact BitVec.add_zero low

/-- One upper bit is changed. -/
theorem int32_flip (x : Word) : int32 (x ^^^ 2 ^ 32) = int32 x := by
  rw [int32, BitVec.setWidth_xor]
  exact BitVec.xor_zero

theorem flip_ne (x : Word) : x ^^^ 2 ^ 32 ≠ x := by
  intro same
  have bit : x ^^^ (x ^^^ 2 ^ 32) = 0#64 := by rw [same, BitVec.xor_self]
  rw [← BitVec.xor_assoc, BitVec.xor_self, BitVec.zero_xor] at bit
  exact absurd bit (by decide)

theorem resultWord_divu (a b : Word) : RegOp.divu.resultWord a b =
    if int32 b = 0 then -1 else (int32 a / int32 b).signExtend 64 := by
  by_cases zero : int32 b = 0
  · rw [if_pos zero]
    exact congrArg (BitVec.signExtend 64) (if_pos zero)
  · rw [if_neg zero, BitVec.udiv_def]
    exact congrArg (BitVec.signExtend 64) (if_neg zero)

/-- The quotients of the least and the greatest dividend with a given lower half differ. -/
theorem quotients_ne {low divisor : BitVec 32} (positive : divisor ≠ 0) :
    (low.setWidth 64 : Word) / divisor.setWidth 64 ≠
      (low.setWidth 64 + 0xffffffff00000000) / divisor.setWidth 64 := by
  intro same
  have numbers := congrArg BitVec.toNat same
  have small := divisor.isLt
  have lowSmall := low.isLt
  have zero : divisor.toNat ≠ 0 := fun zero => positive (BitVec.eq_of_toNat_eq zero)
  rw [BitVec.toNat_udiv, BitVec.toNat_udiv, toNat_upper, BitVec.toNat_setWidth, BitVec.toNat_setWidth,
    Nat.mod_eq_of_lt (by omega), Nat.mod_eq_of_lt (by omega)] at numbers
  have step : low.toNat / divisor.toNat + 1 ≤ (low.toNat + (2 ^ 64 - 2 ^ 32)) / divisor.toNat := by
    rw [← Nat.add_div_right _ (by omega)]
    exact Nat.div_le_div_right (by omega)
  omega

/-- The values that the two operands have while their lower halves stay. -/
structure Operands (inst : BitVec 32) (cpu : Cpu) (a b : Word) : Prop where
  low1 : int32 a = int32 (cpu.visible (RiscV.rs1 inst))
  low2 : int32 b = int32 (cpu.visible (RiscV.rs2 inst))
  zero1 : RiscV.rs1 inst = 0 → a = 0
  zero2 : RiscV.rs2 inst = 0 → b = 0
  same : RiscV.rs1 inst = RiscV.rs2 inst → a = b

theorem SameWords.operands (words : SameWords op inst cpu.regs x) :
    Operands inst cpu ((cpu.withRegs x).visible (RiscV.rs1 inst)) ((cpu.withRegs x).visible (RiscV.rs2 inst)) where
  low1 := words.low _
  low2 := words.low _
  zero1 zero := by rw [zero, visible_zero]
  zero2 zero := by rw [zero, visible_zero]
  same same := by rw [same]

theorem Operands.exists_registers (operands : Operands inst cpu a b) (op : RegOp) :
    ∃ x, SameWords (.register op) inst cpu.regs x ∧ (cpu.withRegs x).visible (RiscV.rs1 inst) = a ∧
      (cpu.withRegs x).visible (RiscV.rs2 inst) = b := by
  let x : Reg → Word := fun r =>
    if r = 0 then cpu.regs r else if r = RiscV.rs1 inst then a else if r = RiscV.rs2 inst then b else cpu.regs r
  have set {r : Reg} (positive : r ≠ 0) : (cpu.withRegs x).visible r =
      if r = RiscV.rs1 inst then a else if r = RiscV.rs2 inst then b else cpu.regs r :=
    (visible_of_ne _ positive).trans (if_neg positive)
  refine ⟨x, ?_, ?_, ?_⟩
  · intro r
    have value : x r = if r = 0 then cpu.regs r else
        if r = RiscV.rs1 inst then a else if r = RiscV.rs2 inst then b else cpu.regs r := rfl
    rw [value]
    by_cases zero : r = 0
    · rw [if_pos zero]
      exact ⟨rfl, fun _ => rfl⟩
    by_cases first : r = RiscV.rs1 inst
    · rw [if_neg zero, if_pos first, ← visible_of_ne cpu zero]
      exact ⟨first ▸ operands.low1, fun other => absurd (.inl first) other⟩
    by_cases second : r = RiscV.rs2 inst
    · rw [if_neg zero, if_neg first, if_pos second, ← visible_of_ne cpu zero]
      exact ⟨second ▸ operands.low2, fun other => absurd (.inr second) other⟩
    · rw [if_neg zero, if_neg first, if_neg second]
      exact ⟨rfl, fun _ => rfl⟩
  · by_cases zero : RiscV.rs1 inst = 0
    · rw [operands.zero1 zero, zero, visible_zero]
    · rw [set zero, if_pos rfl]
  · by_cases zero : RiscV.rs2 inst = 0
    · rw [operands.zero2 zero, zero, visible_zero]
    by_cases same : RiscV.rs2 inst = RiscV.rs1 inst
    · rw [set zero, if_pos same, operands.same same.symm]
    · rw [set zero, if_neg same, if_pos rfl]

/-- A divisor that has no lower half but is not zero. -/
theorem exists_operands (positive : RiscV.rs2 inst ≠ 0) (zero : int32 (cpu.visible (RiscV.rs2 inst)) = 0) :
    ∃ a, Operands inst cpu a (2 ^ 32) := by
  by_cases same : RiscV.rs1 inst = RiscV.rs2 inst
  · refine ⟨2 ^ 32, ?_, zero.symm, fun none => absurd (same.symm.trans none) positive,
      fun none => absurd none positive, fun _ => rfl⟩
    rw [same, zero]
    rfl
  · refine ⟨cpu.visible (RiscV.rs1 inst), rfl, zero.symm, fun none => ?_, fun none => absurd none positive,
      fun bound => absurd bound same⟩
    rw [none, visible_zero]

theorem worksOnWords_register {op : RegOp} (takes : Takes (.register op) inst) :
    WorksOnWords (.register op) inst cpu ↔ ∀ a b, Operands inst cpu a b →
      ∃ v, op32Value op a b = .ok v ∧ (RiscV.rd inst = 0 ∨ v = op.resultWord a b) := by
  obtain ⟨known, -, opcode, funct3, funct7⟩ := takes
  have values := @worksOnWords_registers cpu inst (.register op)
    (fun x => op32Value op (x (RiscV.rs1 inst)) (x (RiscV.rs2 inst)))
    (fun x => op.resultWord (x (RiscV.rs1 inst)) (x (RiscV.rs2 inst)))
    (fun cpu => (execute_group cpu opcode).trans (execOp32_eq op known funct3 funct7)) fun cpu => rfl
  rw [values]
  constructor
  · intro writes a b operands
    obtain ⟨x, words, rfl, rfl⟩ := operands.exists_registers op
    exact writes x words
  · intro writes x words
    exact writes _ _ words.operands

/-- `divuw` works on words if it writes nothing, if the whole divisor is zero, or if the upper half of the dividend
is bound to that of the divisor. -/
theorem worksOnWords_divu (takes : Takes (.register .divu) inst) :
    WorksOnWords (.register .divu) inst cpu ↔ Fits (.register .divu) inst cpu := by
  rw [worksOnWords_register takes]
  simp only [Fits, op32Value, Except.ok.injEq, exists_eq_left', resultWord_divu]
  constructor
  · intro writes
    by_contra unfit
    rw [not_or, not_or] at unfit
    obtain ⟨target, positive, unbound⟩ := unfit
    by_cases zero : int32 (cpu.visible (RiscV.rs2 inst)) = 0
    · -- A divisor of which only an upper bit is set.
      obtain ⟨a, operands⟩ := exists_operands positive zero
      have wrong := (writes a (2 ^ 32) operands).resolve_left target
      rw [if_neg (by decide), if_pos (by decide)] at wrong
      have number := congrArg BitVec.toNat wrong
      have below := a.isLt
      have power : (2 ^ 32 : Word).toNat = 2 ^ 32 := rfl
      have ones : (-1 : Word).toNat = 2 ^ 64 - 1 := rfl
      rw [BitVec.toNat_udiv, power, ones] at number
      omega
    · -- The least and the greatest dividend with the same lower half.
      rw [not_and_not_right] at unbound
      have free : ¬ (RiscV.rs1 inst = 0 ∨ RiscV.rs1 inst = RiscV.rs2 inst) := fun bound => zero (unbound bound)
      rw [not_or] at free
      let low := int32 (cpu.visible (RiscV.rs1 inst))
      let divisor := int32 (cpu.visible (RiscV.rs2 inst))
      have value : ∀ a, int32 a = low → a / divisor.setWidth 64 = (low / divisor).signExtend 64 := by
        intro a same
        have operands : Operands inst cpu a (divisor.setWidth 64) := by
          constructor
          · exact same
          · exact int32_setWidth _
          · exact fun zero => absurd zero free.1
          · exact fun zero => absurd zero positive
          · exact fun bound => absurd bound free.2
        have right := (writes _ _ operands).resolve_left target
        have nonzero : divisor.setWidth 64 ≠ (0 : Word) := fun whole =>
          zero ((int32_setWidth divisor).symm.trans (congrArg int32 whole))
        rw [if_neg nonzero, int32_setWidth, if_neg zero, same] at right
        exact right
      exact quotients_ne zero ((value _ (int32_setWidth _)).trans (value _ (int32_upper _)).symm)
  · rintro (target | whole | ⟨bound, low⟩) a b operands
    · exact .inl target
    · right
      rw [operands.zero2 whole]
      rfl
    · right
      have low' : int32 b ≠ 0 := by rwa [operands.low2]
      have positive : b ≠ 0 := fun zero => low' (by rw [zero]; rfl)
      rw [if_neg positive, if_neg low']
      rcases bound with zero | same
      · rw [operands.zero1 zero]
        have low : int32 0 / int32 b = 0 := BitVec.zero_udiv
        have whole : 0 / b = 0 := BitVec.zero_udiv
        rw [low, whole]
        rfl
      · rw [operands.same same, BitVec.udiv_self, BitVec.udiv_self, if_neg (by simpa using positive),
          if_neg (by simpa using low')]
        rfl

/-- `remuw` works on words if the divisor has a lower half, or if the whole divisor is zero and the dividend has no
upper half or is not needed. -/
theorem worksOnWords_remu (takes : Takes (.register .remu) inst) :
    WorksOnWords (.register .remu) inst cpu ↔ Fits (.register .remu) inst cpu := by
  rw [worksOnWords_register takes]
  constructor
  · intro writes
    by_contra unfit
    rw [Fits, not_or, not_not] at unfit
    obtain ⟨zero, unbound⟩ := unfit
    by_cases whole : RiscV.rs2 inst = 0
    · -- A dividend that is not the sign extension of its lower half.
      rw [not_and, not_or] at unbound
      obtain ⟨positive, target⟩ := unbound whole
      let number := word (cpu.visible (RiscV.rs1 inst))
      have low : int32 (number ^^^ 2 ^ 32) = int32 (cpu.visible (RiscV.rs1 inst)) :=
        (int32_flip number).trans (int32_word _)
      have operands : Operands inst cpu (number ^^^ 2 ^ 32) 0 := by
        constructor
        · exact low
        · exact zero.symm
        · exact fun none => absurd none positive
        · exact fun _ => rfl
        · exact fun bound => absurd (bound.trans whole) positive
      obtain ⟨v, ran, right⟩ := writes _ _ operands
      have value : v = number ^^^ 2 ^ 32 := (Except.ok.inj ran).symm
      have remainder : RegOp.remu.resultWord (number ^^^ 2 ^ 32) 0 = number :=
        congrArg (BitVec.signExtend 64) low
      rw [value, remainder] at right
      exact flip_ne number (right.resolve_left target)
    · -- A divisor of which only an upper bit is set.
      obtain ⟨a, operands⟩ := exists_operands whole zero
      obtain ⟨v, crash, _⟩ := writes a (2 ^ 32) operands
      rw [op32Value, if_neg (by decide), if_pos (by decide)] at crash
      cases crash
  · rintro (low | ⟨whole, rest⟩) a b operands
    · have low' : int32 b ≠ 0 := by rwa [operands.low2]
      have positive : b ≠ 0 := fun zero => low' (by rw [zero]; rfl)
      exact ⟨_, (if_neg positive).trans (if_neg low'), .inr rfl⟩
    · refine ⟨a, if_pos (operands.zero2 whole), ?_⟩
      rcases rest with zero | target
      · rw [operands.zero1 zero, operands.zero2 whole]
        exact .inr rfl
      · exact .inl target

/-- The lower half of what is stored. -/
theorem int32_update {op : AmoOp} (known : knows (.atomic op)) (t b : Word) :
    int32 (op.update t b) = op.update (int32 t) (int32 b) := by
  cases op
  case amoadd => exact int32_add t b
  case amoswap => rfl
  all_goals cases known

/-- Different operands store different numbers. -/
theorem update_injective {op : AmoOp} (known : knows (.atomic op)) {t b b' : Word}
    (same : op.update t b = op.update t b') : b = b' := by
  cases op
  case amoadd => exact BitVec.add_right_inj t |>.mp same
  case amoswap => exact same
  all_goals cases known

theorem setWidth_int32 {value : Word} (small : value.toNat < 2 ^ 32) : (int32 value).setWidth 64 = value := by
  apply BitVec.eq_of_toNat_eq
  rw [BitVec.toNat_setWidth, int32, BitVec.toNat_setWidth, Nat.mod_eq_of_lt small, Nat.mod_eq_of_lt value.isLt]

/-- Two exchanges with a word that is found look the same if they read and store the same. -/
theorem exchange_observed (found : cpu.wordAt addr = some (pa, t)) (rd : Reg)
    {stored stored' read read' : Word → Word} (low : int32 (stored t) = int32 (stored' t)) :
    observed ((exchange addr rd stored read).run cpu) = observed ((exchange addr rd stored' read').run cpu) ↔
      (rd = 0 ∨ read t = read' t) ∧ (pa ∈ plicRegisters → stored t = stored' t) := by
  obtain ⟨after, runs, same⟩ := exchange_found found
  rw [runs, runs, observed_setReg, same _ _ low, and_comm]

/-- The state in which an atomic instruction finds the processor with other registers. -/
theorem SameWords.address {op : AmoOp} (words : SameWords (.atomic op) inst cpu.regs x) :
    (cpu.withRegs x).visible (RiscV.rs1 inst) = cpu.visible (RiscV.rs1 inst) := by
  by_cases zero : RiscV.rs1 inst = 0
  · rw [zero, visible_zero, visible_zero]
  · rw [visible_of_ne _ zero, visible_of_ne _ zero]
    exact (words _).2 fun operand => operand.2 rfl

/-- Both programs of an atomic instruction. -/
theorem atomic_runs {op : AmoOp} (takes : Takes (.atomic op) inst)
    (words : SameWords (.atomic op) inst cpu.regs x) :
    (execute (inst.setWidth 64)).run (cpu.withRegs x) =
        (exchange (cpu.visible (RiscV.rs1 inst)) (RiscV.rd inst)
          (fun t => op.update t ((cpu.withRegs x).visible (RiscV.rs2 inst))) id).run ((cpu.withRegs x).setReg 0 0) ∧
      (specified (.atomic op) inst).run (cpu.withRegs x) =
        (exchange (cpu.visible (RiscV.rs1 inst)) (RiscV.rd inst)
          (fun t => (op.update (int32 t) (int32 ((cpu.withRegs x).visible (RiscV.rs2 inst)))).setWidth 64)
          word).run ((cpu.withRegs x).setReg 0 0) := by
  obtain ⟨known, opcode, funct3, funct5⟩ := takes
  rw [← words.address]
  exact ⟨(execute_group _ opcode).trans (execAmo_eq op known funct3 funct5), rfl⟩

/-- An atomic instruction works on words if the word in memory is sign-extended or not read, and if all of what it
stores in the interrupt controller is a matter of the lower halves. -/
theorem worksOnWords_atomic {op : AmoOp} (takes : Takes (.atomic op) inst) :
    WorksOnWords (.atomic op) inst cpu ↔ Fits (.atomic op) inst cpu := by
  have known := takes.1
  have mmu (x) : SameMmu cpu ((cpu.withRegs x).setReg 0 0) := ⟨rfl, rfl, rfl⟩
  have low (t b : Word) : int32 (op.update t b) = int32 ((op.update (int32 t) (int32 b)).setWidth 64) := by
    rw [int32_setWidth, int32_update known]
  constructor
  · intro works pa t found
    have same : ∀ x, SameWords (.atomic op) inst cpu.regs x →
        (RiscV.rd inst = 0 ∨ t = word t) ∧ (pa ∈ plicRegisters →
          op.update t ((cpu.withRegs x).visible (RiscV.rs2 inst)) =
            (op.update (int32 t) (int32 ((cpu.withRegs x).visible (RiscV.rs2 inst)))).setWidth 64) := by
      intro x words
      have ends := works.result x words
      obtain ⟨executes, specifies⟩ := atomic_runs takes words
      rw [executes, specifies] at ends
      exact (exchange_observed ((wordAt_congr (mmu x)).trans found) _ (low ..)).mp ends
    have start := SameWords.refl (.atomic op) inst cpu.regs
    obtain ⟨read, whole⟩ := same _ start
    refine ⟨read, fun register => ⟨?_, ?_⟩⟩
    · by_contra free
      rw [not_or] at free
      -- The upper half of the operand gets into the register.
      have operand : IsOperand (.atomic op) inst (RiscV.rs2 inst) := ⟨rfl, free.2⟩
      have words := start.update operand _ (int32_flip (cpu.regs (RiscV.rs2 inst)))
      have flipped := (same _ words).2 register
      have stays := words.low (RiscV.rs2 inst)
      rw [stays, ← start.low, ← whole register, visible_of_ne _ free.1, visible_of_ne _ free.1] at flipped
      have equal : Function.update cpu.regs (RiscV.rs2 inst) (cpu.regs (RiscV.rs2 inst) ^^^ 2 ^ 32)
          (RiscV.rs2 inst) = cpu.regs (RiscV.rs2 inst) := update_injective known flipped
      rw [Function.update_self] at equal
      exact flip_ne _ equal
    · have number := congrArg BitVec.toNat (whole register)
      have small := (op.update (int32 t) (int32 (cpu.visible (RiscV.rs2 inst)))).isLt
      rw [BitVec.toNat_setWidth, Nat.mod_eq_of_lt (by omega)] at number
      exact number.trans_lt small
  · intro fits
    constructor
    · intro x words
      obtain ⟨executes, specifies⟩ := atomic_runs takes words
      rw [executes, specifies]
      cases found : ((cpu.withRegs x).setReg 0 0).wordAt (cpu.visible (RiscV.rs1 inst)) with
      | none =>
          obtain ⟨outcome, _, ends⟩ := exchange_missing found
          rw [ends, ends]
      | some reached =>
          obtain ⟨pa, t⟩ := reached
          obtain ⟨read, register⟩ := fits pa t ((wordAt_congr (mmu x)).symm.trans found)
          refine (exchange_observed found _ (low ..)).mpr ⟨read, fun member => ?_⟩
          obtain ⟨bound, small⟩ := register member
          have operand : (cpu.withRegs x).visible (RiscV.rs2 inst) = cpu.visible (RiscV.rs2 inst) := by
            rcases bound with zero | same
            · rw [zero, visible_zero, visible_zero]
            · rw [same, words.address]
          rw [operand, ← int32_update known, setWidth_int32 small]
    · intro x words crash
      rw [(atomic_runs takes words).1] at crash
      cases found : ((cpu.withRegs x).setReg 0 0).wordAt (cpu.visible (RiscV.rs1 inst)) with
      | none =>
          obtain ⟨outcome, other, ends⟩ := exchange_missing found
          exact other ((ends ..).symm.trans crash)
      | some reached =>
          obtain ⟨after, runs, _⟩ := exchange_found found
          rw [runs] at crash
          cases crash

/-- The other register-register instructions write the specified results. -/
theorem op32Value_eq {op : RegOp} (quotient : op ≠ .divu) (remainder : op ≠ .remu) (a b : Word) :
    op32Value op a b = .ok (op.resultWord a b) := by
  cases op
  case divu => exact absurd rfl quotient
  case remu => exact absurd rfl remainder
  all_goals rfl

theorem fits_register {op : RegOp} (quotient : op ≠ .divu) (remainder : op ≠ .remu) :
    Fits (.register op) inst cpu := by
  cases op
  case divu => exact absurd rfl quotient
  case remu => exact absurd rfl remainder
  all_goals trivial

theorem worksOnWords_immediate {op : ImmOp} (takes : Takes (.immediate op) inst) :
    WorksOnWords (.immediate op) inst cpu := by
  have opcode : RiscV.opcode inst = RiscV.OP_IMM_32 := by
    cases op with
    | slli => exact takes.2.1
    | _ => exact takes.2.2.1
  have values := @worksOnWords_registers cpu inst (.immediate op)
    (fun x => .ok (op.resultWord inst (x (RiscV.rs1 inst)))) (fun x => op.resultWord inst (x (RiscV.rs1 inst)))
    (fun cpu => (execute_group cpu opcode).trans (execOpImm32_eq op takes)) fun cpu => rfl
  rw [values]
  exact fun x _ => ⟨_, rfl, .inr rfl⟩

/-- An instruction of the groups OP-32 and OP-IMM-32 and an atomic instruction on words is a matter of the lower
halves of its operands, as the specification has it, exactly for these operands. -/
theorem worksOnWords_iff (cpu : Cpu) {inst : BitVec 32} {op : WordOp} (takes : Takes op inst) :
    WorksOnWords op inst cpu ↔ Fits op inst cpu := by
  cases op with
  | register op =>
      by_cases quotient : op = .divu
      · subst quotient
        exact worksOnWords_divu takes
      by_cases remainder : op = .remu
      · subst remainder
        exact worksOnWords_remu takes
      · rw [worksOnWords_register takes]
        exact iff_of_true (fun a b _ => ⟨_, op32Value_eq quotient remainder a b, .inr rfl⟩)
          (fits_register quotient remainder)
  | immediate op => exact iff_of_true (worksOnWords_immediate takes) trivial
  | atomic op => exact worksOnWords_atomic takes

/-- `remuw x1, x2, x3` with the divisor 7, whatever is above it. -/
theorem worksOnWords_iff_remuw : WorksOnWords (.register .remu) 0x023170bb ((new [] #[]).setReg 3 7) :=
  (worksOnWords_iff ((new [] #[]).setReg 3 7) (.of_encodes rfl (by decide))).mpr (.inl (by decide))

/-- A processor with a word in memory of which the sign is set, and its address in `x2`. -/
def pointsAtOnes : Cpu := (new [255, 255, 255, 255] #[]).setReg 2 RAM_BASE

/-- `remuw x1, x2, x3` with 2^32 in `x3` divides by zero on the host, `divuw x1, x2, x3` with 2^32 in `x2` and 1 in
`x3` has a quotient, and `amoswap.w x1, x3, (x2)` does not extend the sign of the word that it reads. -/
theorem worksOnWords_not :
    ((execute 0x023170bb).run ((new [] #[]).setReg 3 (2 ^ 32)) = .error .divisionByZero ∧
      ¬ WorksOnWords (.register .remu) 0x023170bb ((new [] #[]).setReg 3 (2 ^ 32))) ∧
    ((∃ next, (execute 0x023150bb).run (((new [] #[]).setReg 2 (2 ^ 32)).setReg 3 1) = .ok (.ok (), next) ∧
        next.regs 1 = 2 ^ 32) ∧
      ¬ WorksOnWords (.register .divu) 0x023150bb (((new [] #[]).setReg 2 (2 ^ 32)).setReg 3 1)) ∧
    ((∃ next, (execute 0x083120af).run pointsAtOnes = .ok (.ok (), next) ∧ next.regs 1 = 0xffffffff) ∧
      ¬ WorksOnWords (.atomic .amoswap) 0x083120af pointsAtOnes) := by
  refine ⟨⟨rfl, fun works => ?_⟩, ⟨⟨_, rfl, rfl⟩, fun works => ?_⟩, ⟨_, rfl, rfl⟩, fun works => ?_⟩
  · exact works.divides _ (SameWords.refl _ _ _) rfl
  · have fits := (worksOnWords_divu (.of_encodes rfl (by decide))).mp works
    revert fits
    unfold Fits
    decide
  · have fits := (worksOnWords_atomic (.of_encodes rfl (by decide))).mp works
    have found : pointsAtOnes.wordAt RAM_BASE = some (RAM_BASE, 0xffffffff) := rfl
    exact absurd (fits _ _ found).1 (by decide)

end Cpu

end Riscv2os.Semu
