import Riscv2os.Emulator.CsrOps
import Riscv2os.Emulator.LoadStore

/-!
# The words that the emulator executes

`rv_step` looks at bits 2 to 6 of a word, at `funct3` and `funct7` for some of the groups of
instructions, and at nothing else. A word that agrees there with a legal one is executed like it.
-/

namespace Riscv2os.Emulator

open Riscv2os.Std
open RiscV (RegOp BranchOp LoadOp StoreOp CsrOp Legal)

/-- What `rv_step` sees of the opcode. -/
def group (inst : BitVec 32) : Nat := ((RiscV.opcode inst).extractLsb' 2 5).toNat

/-- A word that `rv_step` does not reject: its group is known, and so are the function fields that
are looked at. A load and a store is to get to a chunk as well, `LHU` at an even address. -/
def Machine.Runs (m : Machine) (inst : BitVec 32) : Prop :=
  match group inst with
  | 0b01101 | 0b00101 | 0b11011 | 0b11001 | 0b00100 | 0b00011 => True
  | 0b01100 => ∃ op : RegOp, RiscV.funct3 inst = op.funct3 ∧ RiscV.funct7 inst = op.funct7
  | 0b11000 => ∃ op : BranchOp, RiscV.funct3 inst = op.funct3
  | 0b00000 => ∃ op : LoadOp, RiscV.funct3 inst = op.funct3 ∧
      m.memory.Accepts (m.loadAddr inst) op.count ∧ (op = .lhu → m.loadAddr inst &&& 1 = 0)
  | 0b01000 => ∃ op : StoreOp, RiscV.funct3 inst = op.funct3 ∧
      m.memory.Accepts (m.storeAddr inst) op.count
  | 0b11100 => ∃ op : CsrOp, RiscV.funct3 inst = op.funct3
  | _ => False

/-- The three bits of `funct3`, one by one. -/
theorem funct3_cases (inst : BitVec 32) : RiscV.funct3 inst = 0 ∨ RiscV.funct3 inst = 1 ∨
    RiscV.funct3 inst = 2 ∨ RiscV.funct3 inst = 3 ∨ RiscV.funct3 inst = 4 ∨ RiscV.funct3 inst = 5 ∨
    RiscV.funct3 inst = 6 ∨ RiscV.funct3 inst = 7 := by
  have all : ∀ f : BitVec 3, f = 0 ∨ f = 1 ∨ f = 2 ∨ f = 3 ∨ f = 4 ∨ f = 5 ∨ f = 6 ∨ f = 7 := by decide
  exact all _

namespace Machine

variable {m : Machine} {inst : BitVec 32}

theorem rvOpImm_unreported : Unreported (m.rvOpImm (rvDecode inst)) := by
  unfold rvOpImm
  rw [rvDecode_funct3]
  obtain f | f | f | f | f | f | f | f := funct3_cases inst <;> rw [f]
  case inr.inr.inr.inr.inr.inl =>
    show Unreported (Except.map next (if _ then _ else _))
    split <;> trivial
  all_goals trivial

theorem rvBranch_unreported : Unreported (m.rvBranch (rvDecode inst)) ↔
    ∃ op : BranchOp, RiscV.funct3 inst = op.funct3 := by
  constructor
  · intro silent
    unfold rvBranch at silent
    rw [rvDecode_funct3] at silent
    obtain f | f | f | f | f | f | f | f := funct3_cases inst
    · exact ⟨.beq, f⟩
    · exact ⟨.bne, f⟩
    · rw [f] at silent
      exact silent.elim
    · rw [f] at silent
      exact silent.elim
    · exact ⟨.blt, f⟩
    · exact ⟨.bge, f⟩
    · exact ⟨.bltu, f⟩
    · exact ⟨.bgeu, f⟩
  · rintro ⟨op, funct3⟩
    rw [rvBranch_eq op funct3]
    trivial

theorem rvOp_unreported : Unreported (m.rvOp (rvDecode inst)) ↔
    ∃ op : RegOp, RiscV.funct3 inst = op.funct3 ∧ RiscV.funct7 inst = op.funct7 := by
  have field : (rvDecode inst).funct7 = (RiscV.funct7 inst).setWidth 32 := decFunct7_eq inst
  unfold rvOp
  refine (Unreported.bind_iff fun _ _ => unreported_ok _).trans ?_
  rw [rvDecode_funct3, field]
  constructor
  · intro silent
    by_cases base : RiscV.funct7 inst = 0
    · obtain f | f | f | f | f | f | f | f := funct3_cases inst
      exacts [⟨.add, f, base⟩, ⟨.sll, f, base⟩, ⟨.slt, f, base⟩, ⟨.sltu, f, base⟩, ⟨.xor, f, base⟩,
        ⟨.srl, f, base⟩, ⟨.or, f, base⟩, ⟨.and, f, base⟩]
    by_cases mul : RiscV.funct7 inst = 1
    · obtain f | f | f | f | f | f | f | f := funct3_cases inst
      exacts [⟨.mul, f, mul⟩, ⟨.mulh, f, mul⟩, ⟨.mulhsu, f, mul⟩, ⟨.mulhu, f, mul⟩, ⟨.div, f, mul⟩,
        ⟨.divu, f, mul⟩, ⟨.rem, f, mul⟩, ⟨.remu, f, mul⟩]
    by_cases alt : RiscV.funct7 inst = 0b0100000
    · rw [alt] at silent
      obtain f | f | f | f | f | f | f | f := funct3_cases inst
      case inl => exact ⟨.sub, f, alt⟩
      case inr.inr.inr.inr.inr.inl => exact ⟨.sra, f, alt⟩
      all_goals
        rw [f] at silent
        exact silent.elim
    · -- `funct7` is none of the three
      have number : ((RiscV.funct7 inst).setWidth 32).toNat = (RiscV.funct7 inst).toNat := by
        have := (RiscV.funct7 inst).isLt
        rw [BitVec.toNat_setWidth]
        omega
      unfold rvOpValue at silent
      rw [number] at silent
      split at silent
      · next zero => exact absurd (BitVec.eq_of_toNat_eq zero) base
      · next one => exact absurd (BitVec.eq_of_toNat_eq one) mul
      · next sub => exact absurd (BitVec.eq_of_toNat_eq sub) alt
      · exact silent.elim
  · rintro ⟨op, funct3, funct7⟩
    rw [funct3, funct7, rvOpValue_eq]
    trivial

theorem readB_unreported {memory : Memory} {addr : BitVec 32} :
    Unreported (memory.readB addr) ↔ memory.Accepts addr 1 :=
  (Unreported.bind_iff fun _ _ => unreported_ok _).trans
    (Memory.readBytes_unreported _ (by decide) (by decide))

theorem readS_unreported {memory : Memory} {addr : BitVec 32} :
    Unreported (memory.readS addr) ↔ memory.Accepts addr 2 :=
  (Unreported.bind_iff fun _ _ => unreported_ok _).trans
    (Memory.readBytes_unreported _ (by decide) (by decide))

theorem readW_unreported {memory : Memory} {addr : BitVec 32} :
    Unreported (memory.readW addr) ↔ memory.Accepts addr 4 :=
  (Unreported.bind_iff fun _ _ => unreported_ok _).trans
    (Memory.readBytes_unreported _ (by decide) (by decide))

/-- A load of a known width depends on the access alone. -/
theorem rvLoad_unreported_of (op : LoadOp) (funct3 : RiscV.funct3 inst = op.funct3) :
    Unreported (m.rvLoad (rvDecode inst)) ↔
      m.memory.Accepts (m.loadAddr inst) op.count ∧ (op = .lhu → m.loadAddr inst &&& 1 = 0) := by
  unfold rvLoad
  rw [rvDecode_funct3, funct3, get_rs1, rvDecode_iImm]
  cases op with
  | lb | lbu =>
      simp only [reduceCtorEq, false_implies, and_true]
      exact (Unreported.bind_iff fun _ _ => unreported_ok _).trans readB_unreported
  | lh =>
      simp only [reduceCtorEq, false_implies, and_true]
      exact (Unreported.bind_iff fun _ _ => unreported_ok _).trans readS_unreported
  | lw =>
      simp only [reduceCtorEq, false_implies, and_true]
      exact (Unreported.bind_iff fun _ _ => unreported_ok _).trans readW_unreported
  | lhu =>
      simp only [true_implies]
      show Unreported (if m.loadAddr inst &&& 1 ≠ 0 then _ else _) ↔ _
      split
      · next odd => exact iff_of_false id fun both => odd both.2
      · next even =>
        rw [and_iff_left (not_not.mp even)]
        exact (Unreported.bind_iff fun _ _ => unreported_ok _).trans readS_unreported

theorem rvLoad_unreported : Unreported (m.rvLoad (rvDecode inst)) ↔
    ∃ op : LoadOp, RiscV.funct3 inst = op.funct3 ∧
      m.memory.Accepts (m.loadAddr inst) op.count ∧ (op = .lhu → m.loadAddr inst &&& 1 = 0) := by
  constructor
  · intro silent
    have known : ∃ op : LoadOp, RiscV.funct3 inst = op.funct3 := by
      unfold rvLoad at silent
      rw [rvDecode_funct3] at silent
      obtain f | f | f | f | f | f | f | f := funct3_cases inst
      case inl => exact ⟨.lb, f⟩
      case inr.inl => exact ⟨.lh, f⟩
      case inr.inr.inl => exact ⟨.lw, f⟩
      case inr.inr.inr.inr.inl => exact ⟨.lbu, f⟩
      case inr.inr.inr.inr.inr.inl => exact ⟨.lhu, f⟩
      all_goals
        rw [f] at silent
        exact silent.elim
    obtain ⟨op, funct3⟩ := known
    exact ⟨op, funct3, (rvLoad_unreported_of op funct3).mp silent⟩
  · rintro ⟨op, funct3, accepts⟩
    exact (rvLoad_unreported_of op funct3).mpr accepts

theorem rvStore_unreported_of (op : StoreOp) (funct3 : RiscV.funct3 inst = op.funct3) :
    Unreported (m.rvStore (rvDecode inst)) ↔ m.memory.Accepts (m.storeAddr inst) op.count := by
  unfold rvStore
  rw [rvDecode_funct3, funct3, get_rs1, rvDecode_sImm]
  cases op with
  | sb =>
      refine (Unreported.bind_iff fun _ _ => unreported_ok _).trans ?_
      refine (Unreported.bind_iff fun value _ => Memory.ioWriteB_unreported ..).trans ?_
      exact Memory.writeBytes_unreported _ _ (by decide) (by decide)
  | sh =>
      refine (Unreported.bind_iff fun _ _ => unreported_ok _).trans ?_
      refine (Unreported.bind_iff fun _ _ => unreported_ok _).trans ?_
      exact Memory.writeBytes_unreported _ _ (by decide) (by decide)
  | sw =>
      refine (Unreported.bind_iff fun _ _ => unreported_ok _).trans ?_
      refine (Unreported.bind_iff fun _ _ => unreported_ok _).trans ?_
      exact Memory.writeBytes_unreported _ _ (by decide) (by decide)

theorem rvStore_unreported : Unreported (m.rvStore (rvDecode inst)) ↔
    ∃ op : StoreOp, RiscV.funct3 inst = op.funct3 ∧ m.memory.Accepts (m.storeAddr inst) op.count := by
  constructor
  · intro silent
    have known : ∃ op : StoreOp, RiscV.funct3 inst = op.funct3 := by
      unfold rvStore at silent
      rw [rvDecode_funct3] at silent
      obtain f | f | f | f | f | f | f | f := funct3_cases inst
      case inl => exact ⟨.sb, f⟩
      case inr.inl => exact ⟨.sh, f⟩
      case inr.inr.inl => exact ⟨.sw, f⟩
      all_goals
        rw [f] at silent
        exact silent.elim
    obtain ⟨op, funct3⟩ := known
    exact ⟨op, funct3, (rvStore_unreported_of op funct3).mp silent⟩
  · rintro ⟨op, funct3, accepts⟩
    exact (rvStore_unreported_of op funct3).mpr accepts

theorem rvSystem_unreported : Unreported (m.rvSystem (rvDecode inst)) ↔
    ∃ op : CsrOp, RiscV.funct3 inst = op.funct3 := by
  unfold rvSystem
  rw [rvDecode_funct3]
  constructor
  · intro silent
    obtain f | f | f | f | f | f | f | f := funct3_cases inst
    case inr.inl => exact ⟨.csrrw, f⟩
    case inr.inr.inl => exact ⟨.csrrs, f⟩
    case inr.inr.inr.inl => exact ⟨.csrrc, f⟩
    case inr.inr.inr.inr.inr.inl => exact ⟨.csrrwi, f⟩
    case inr.inr.inr.inr.inr.inr.inl => exact ⟨.csrrsi, f⟩
    case inr.inr.inr.inr.inr.inr.inr => exact ⟨.csrrci, f⟩
    all_goals
      rw [f] at silent
      exact silent.elim
  · rintro ⟨op, funct3⟩
    rw [funct3]
    cases op <;> trivial

/-- What is not rejected runs. -/
theorem execute_unreported : Unreported (m.execute (rvDecode inst)) ↔ m.Runs inst := by
  have seen : (rvDecode inst).op.toNat = group inst := by
    rw [rvDecode_op, group, BitVec.toNat_setWidth]
    have := ((RiscV.opcode inst).extractLsb' 2 5).isLt
    omega
  unfold execute Runs
  rw [seen]
  generalize group inst = n
  split
  case h_5 => exact rvOp_unreported
  case h_6 => exact iff_of_true rvOpImm_unreported trivial
  case h_7 => exact rvBranch_unreported
  case h_8 => exact rvLoad_unreported
  case h_9 => exact rvStore_unreported
  case h_10 => exact rvSystem_unreported
  case h_1 | h_2 | h_3 | h_4 | h_11 => exact iff_of_true trivial trivial
  case h_12 =>
    refine iff_of_false id fun runs => ?_
    split at runs <;> simp_all

theorem not_unreported {α : Type} {result : Except Stop α} :
    ¬ Unreported result ↔ ∃ format args, result = .error (.error format args) := by
  cases result with
  | ok value => simp [Unreported]
  | error stop => cases stop <;> simp [Unreported]

/-- A step reports an error for every word that is not legal, but for those that agree with a legal
one in all that is looked at. -/
theorem rvStep_rejects_iff (fetched : m.memory.readW m.pc = .ok inst) :
    ((∀ m', m.rvStep = .ok m' → m' ≠ m → Legal inst) ∧
      (¬ Legal inst → ∃ format args, m.rvStep = .error (.error format args))) ↔
      (Legal inst ∨ ¬ m.Runs inst) := by
  have reports : Unreported m.rvStep ↔ m.Runs inst := by
    rw [rvStep_of_fetched fetched, ← execute_unreported]
    cases m.execute (rvDecode inst) with
    | ok next => exact iff_of_true trivial trivial
    | error stop => exact Iff.rfl
  rw [← reports, ← not_unreported]
  constructor
  · rintro ⟨_, rejects⟩
    by_cases legal : Legal inst
    · exact .inl legal
    · exact .inr (rejects legal)
  · rintro (legal | rejected)
    · exact ⟨fun _ _ _ => legal, fun illegal => absurd legal illegal⟩
    · refine ⟨fun m' ran => ?_, fun _ => rejected⟩
      rw [ran] at rejected
      exact absurd trivial rejected

/-- The word `0x74` has an unknown group. -/
theorem rvStep_rejects_unknown :
    ∃ format args, (oneWord 0x74 fun _ => 0).rvStep = .error (.error format args) := by
  have fetched : (oneWord 0x74 fun _ => 0).memory.readW 0 = .ok 0x74 := rfl
  have illegal : ¬ Legal 0x74 := fun legal => absurd legal.lowBits (by decide)
  exact ((rvStep_rejects_iff fetched).mpr (.inr id)).2 illegal

/-- The word `0x00500090` is executed as `ADDI x1, x0, 5` although its two low bits are clear. -/
theorem rvStep_executes_illegal :
    ¬ Legal 0x00500090 ∧
      ((oneWord 0x00500090 fun _ => 0).rvStep).map (fun m => (m.x 1, m.pc)) = .ok (5, 4) :=
  ⟨fun legal => absurd legal.lowBits (by decide), rfl⟩

end Machine

end Riscv2os.Emulator
