import Riscv2os.Emulator.Legal
import Riscv2os.Std.Loops

/-!
# The loop of the emulator

`rv_run` steps until the program counter stays where it is. Only a jump or a branch to itself does that, and it
does so again in the next round unless it jumps by the register that it has just linked to.
-/

namespace Riscv2os.Emulator

open Riscv2os.Std
open RiscV (Reg writeReg)

namespace Machine

/-- The loop of `rv_run` for a number of rounds. No code sets `halt`. The result is `none` when the rounds are
used up. -/
def rvLoop : Nat → Machine → Option (Except Stop Machine)
  | 0, _ => none
  | rounds + 1, m =>
      match m.rvStep with
      | .error stop => some (.error stop)
      | .ok m' => if m.pc = m'.pc then some (.ok m') else rvLoop rounds m'

/-- `rv_run`. -/
def rvRun (rounds : Nat) (m : Machine) (entry : BitVec 32) : Option (Except Stop Machine) :=
  rvLoop rounds { m with pc := entry }

/-- The states of the machine from one on, step by step. -/
inductive Steps : Machine → Machine → Prop where
  | refl {m} : Steps m m
  | step {m m' last} (ran : m.rvStep = .ok m') (more : Steps m' last) : Steps m last

/-- A word that jumps by the register it links to, with a displacement that does not take it back to itself. -/
def LinksItself (inst : BitVec 32) : Prop :=
  group inst = 0b11001 ∧ RiscV.rd inst = RiscV.rs1 inst ∧ RiscV.rd inst ≠ 0 ∧
    RiscV.immI inst 32 ≠ -4 ∧ RiscV.immI inst 32 ≠ -3

instance (inst : BitVec 32) : Decidable (LinksItself inst) :=
  inferInstanceAs (Decidable (_ ∧ _ ∧ _ ∧ _ ∧ _))

section Advance

/-! ## Where the program counter goes -/

variable {m m' : Machine} {d : Decoded}

theorem ahead (pc : BitVec 32) : pc + 4 ≠ pc := by bv_omega

theorem rvOp_pc (ran : m.rvOp d = .ok m') : m'.pc = m.pc + 4 := by
  obtain ⟨value, -, stored⟩ := bind_ok.mp ran
  cases stored
  rfl

theorem rvOpImm_pc (ran : m.rvOpImm d = .ok m') : m'.pc = m.pc + 4 := by
  unfold rvOpImm at ran
  simp only at ran
  split at ran
  case h_6 =>
    split at ran <;>
    · cases ran
      rfl
  case h_9 => cases ran
  all_goals
    cases ran
    rfl

theorem rvLoad_pc (ran : m.rvLoad d = .ok m') : m'.pc = m.pc + 4 := by
  unfold rvLoad at ran
  simp only at ran
  split at ran
  case h_3 =>
    obtain ⟨value, -, stored⟩ := bind_ok.mp ran
    cases stored
    rfl
  case h_5 =>
    split at ran
    · cases ran
    · obtain ⟨half, -, ran⟩ := bind_ok.mp ran
      cases ran
      rfl
  case h_6 => cases ran
  all_goals
    obtain ⟨part, -, ran⟩ := bind_ok.mp ran
    cases ran
    rfl

theorem rvStore_pc (ran : m.rvStore d = .ok m') : m'.pc = m.pc + 4 := by
  unfold rvStore at ran
  simp only at ran
  split at ran
  case h_4 => cases ran
  all_goals
    obtain ⟨memory, -, stored⟩ := bind_ok.mp ran
    cases stored
    rfl

theorem rvSystem_pc (ran : m.rvSystem d = .ok m') : m'.pc = m.pc + 4 := by
  unfold rvSystem at ran
  simp only at ran
  split at ran
  case h_7 => cases ran
  all_goals
    cases ran
    rfl

/-- A branch that leaves the program counter where it is changes nothing. -/
theorem rvBranch_stays (ran : m.rvBranch d = .ok m') (stays : m'.pc = m.pc) : m' = m := by
  have outcome : ∃ jmp : Bool, m' = if jmp then { m with pc := m.pc + d.bImm } else m.next := by
    unfold rvBranch at ran
    simp only at ran
    split at ran
    case h_7 => cases ran
    all_goals
      cases ran
      exact ⟨_, rfl⟩
  obtain ⟨jmp, rfl⟩ := outcome
  cases jmp with
  | true => exact congrArg (Machine.mk m.x m.csr · m.memory) stays
  | false => exact absurd stays (ahead m.pc)

/-- What the `switch` does when it leaves the program counter where it is. -/
theorem execute_stays (ran : m.execute d = .ok m') (stays : m'.pc = m.pc) :
    d.op.toNat = 0b11000 ∧ m' = m ∨
      d.op.toNat = 0b11011 ∧ m.pc + d.jImm = m.pc ∧ m' = m.set d.rd (m.pc + 4) ∨
      d.op.toNat = 0b11001 ∧ (m.get d.rs1 + d.iImm) &&& ~~~1 = m.pc ∧ m' = m.set d.rd (m.pc + 4) := by
  unfold execute at ran
  split at ran
  case h_3 op =>
    cases ran
    refine .inr (.inl ⟨op, stays, ?_⟩)
    exact congrArg (Machine.mk _ _ · _) stays
  case h_4 op =>
    cases ran
    refine .inr (.inr ⟨op, stays, ?_⟩)
    exact congrArg (Machine.mk _ _ · _) stays
  case h_7 op => exact .inl ⟨op, rvBranch_stays ran stays⟩
  case h_5 => exact absurd ((rvOp_pc ran).symm.trans stays) (ahead m.pc)
  case h_6 => exact absurd ((rvOpImm_pc ran).symm.trans stays) (ahead m.pc)
  case h_8 => exact absurd ((rvLoad_pc ran).symm.trans stays) (ahead m.pc)
  case h_9 => exact absurd ((rvStore_pc ran).symm.trans stays) (ahead m.pc)
  case h_10 => exact absurd ((rvSystem_pc ran).symm.trans stays) (ahead m.pc)
  case h_12 => cases ran
  all_goals
    cases ran
    exact absurd stays (ahead m.pc)

end Advance

section Again

/-! ## The next step -/

variable {m m' : Machine} {inst : BitVec 32}

theorem rvDecode_group (inst : BitVec 32) : (rvDecode inst).op.toNat = group inst := by
  rw [rvDecode_op, group, BitVec.toNat_setWidth]
  have := ((RiscV.opcode inst).extractLsb' 2 5).isLt
  omega

/-- The even address `pc` is `pc + 4` with a displacement of -4 or -3. -/
theorem back_iff (pc imm : BitVec 32) (even : pc &&& ~~~1 = pc) :
    (pc + 4 + imm) &&& ~~~1 = pc ↔ imm = -4 ∨ imm = -3 := by
  have cleared (a : BitVec 32) : (a &&& ~~~1).toNat = a.toNat - a.toNat % 2 := by
    have shifted : a &&& ~~~(1#32) = (a >>> 1) <<< 1 := by
      apply BitVec.eq_of_getLsbD_eq
      intro i small
      interval_cases i <;> simp
    show (a &&& ~~~(1#32)).toNat = _
    rw [shifted, BitVec.toNat_shiftLeft, BitVec.toNat_ushiftRight, Nat.shiftLeft_eq, Nat.shiftRight_eq_div_pow]
    omega
  have whole := congrArg BitVec.toNat even
  rw [cleared] at whole
  constructor
  · intro back
    have place := congrArg BitVec.toNat back
    rw [cleared] at place
    bv_omega
  · intro near
    apply BitVec.eq_of_toNat_eq
    rw [cleared]
    bv_omega

/-- The machine after a jump to itself that links to a register. -/
def linked (m : Machine) (n : BitVec 32) : Machine := (m.set n (m.pc + 4)).set 0 0

/-- Linking again changes nothing. -/
theorem linked_linked (m : Machine) (n : BitVec 32) : (m.linked n).linked n = m.linked n := by
  unfold linked
  rw [set_set_zero, set_set_zero]
  refine congrArg (Machine.mk · m.csr m.pc m.memory) ?_
  funext r
  simp only [writeReg]
  split
  · rfl
  · split <;> rfl

theorem linked_get (m : Machine) (n i : BitVec 32) :
    (m.linked n).get i = writeReg m.x (reg n) (m.pc + 4) (reg i) := by
  unfold linked
  rw [set_set_zero]
  rfl

/-- A jump that links goes on at the same place again if it still leads there, and nothing changes then. -/
theorem linked_rvStep {n pc : BitVec 32} (fetched : m.memory.readW m.pc = .ok inst)
    (executes : (m.linked n).execute (rvDecode inst) = .ok ({ m.linked n with pc := pc }.set n (m.pc + 4))) :
    (m.linked n).rvStep = .ok (m.linked n) ↔ pc = m.pc := by
  have next : (m.linked n).rvStep = _ := rvStep_of_fetched fetched
  rw [next, executes]
  constructor
  · intro again
    exact congrArg Machine.pc (Except.ok.inj again)
  · rintro rfl
    exact congrArg Except.ok (linked_linked m n)

/-- The register that a jump went by leads to the same place after the link was written. -/
theorem link_back_iff (zero : m.x 0 = 0) {rd rs1 : Reg} {imm : BitVec 32}
    (here : (m.x rs1 + imm) &&& ~~~1 = m.pc) :
    (writeReg m.x rd (m.pc + 4) rs1 + imm) &&& ~~~1 = m.pc ↔ ¬ (rd = rs1 ∧ rd ≠ 0 ∧ imm ≠ -4 ∧ imm ≠ -3) := by
  have even : m.pc &&& ~~~1 = m.pc := by
    rw [← here, BitVec.and_assoc, BitVec.and_self]
  by_cases same : rd = rs1 ∧ rd ≠ 0
  · obtain ⟨rfl, positive⟩ := same
    rw [RiscV.writeReg_self _ positive, back_iff _ _ even]
    constructor
    · rintro back ⟨-, -, four, three⟩
      exact back.elim four three
    · intro links
      by_contra apart
      obtain ⟨four, three⟩ := not_or.mp apart
      exact links ⟨rfl, positive, four, three⟩
  · have kept : writeReg m.x rd (m.pc + 4) rs1 = m.x rs1 := by
      unfold writeReg
      split
      · next first => rw [first, zero]
      · next other => exact if_neg fun equal => same ⟨equal.symm, fun first => other (equal.trans first)⟩
    rw [kept]
    exact iff_of_true here fun links => same ⟨links.1, links.2.1⟩

/-- A step that leaves the program counter where it is can be repeated without any effect, unless it was a jump
by the register it linked to. -/
theorem rvStep_again (zero : m.x 0 = 0) (fetched : m.memory.readW m.pc = .ok inst) (ran : m.rvStep = .ok m')
    (stays : m'.pc = m.pc) : m'.rvStep = .ok m' ↔ ¬ LinksItself inst := by
  have clear : m.set 0 0 = m := by
    rw [set_zero_only]
    refine congrArg (Machine.mk · m.csr m.pc m.memory) ?_
    funext r
    simp only [writeReg]
    split
    · next here => rw [here, zero]
    · rfl
  have step := rvStep_of_fetched fetched
  obtain ⟨after, executed, rfl⟩ := map_ok.mp (step.symm.trans ran)
  have group_eq := rvDecode_group inst
  obtain ⟨branch, rfl⟩ | ⟨jal, here, rfl⟩ | ⟨jalr, here, rfl⟩ := execute_stays executed stays
  · rw [clear] at ran ⊢
    refine iff_of_true ran fun links => ?_
    rw [group_eq, links.1] at branch
    exact absurd branch (by decide)
  · refine iff_of_true ?_ fun links => ?_
    · have executes : (m.linked (rvDecode inst).rd).execute (rvDecode inst) =
          .ok ({ m.linked (rvDecode inst).rd with pc := m.pc + (rvDecode inst).jImm }.set
            (rvDecode inst).rd (m.pc + 4)) := by
        rw [execute, jal]
        rfl
      exact (linked_rvStep fetched executes).mpr here
    · rw [group_eq, links.1] at jal
      exact absurd jal (by decide)
  · have executes : (m.linked (rvDecode inst).rd).execute (rvDecode inst) =
        .ok ({ m.linked (rvDecode inst).rd with
          pc := ((m.linked (rvDecode inst).rd).get (rvDecode inst).rs1 + (rvDecode inst).iImm) &&& ~~~1 }.set
            (rvDecode inst).rd (m.pc + 4)) := by
      rw [execute, jalr]
      rfl
    refine (linked_rvStep fetched executes).trans ?_
    rw [linked_get, rvDecode_iImm, rvDecode, reg_decRd, reg_decRs1]
    rw [get_rs1, rvDecode_iImm] at here
    refine (link_back_iff zero here).trans (not_congr ?_)
    exact ⟨fun links => ⟨group_eq.symm.trans jalr, links⟩, And.right⟩

end Again

/-- The loop ends after a step that leaves the program counter where it is. -/
theorem rvLoop_left {rounds : Nat} {m last : Machine} (zero : m.x 0 = 0)
    (left : rvLoop rounds m = some (.ok last)) :
    ∃ before, Steps m before ∧ before.x 0 = 0 ∧ before.rvStep = .ok last ∧ last.pc = before.pc := by
  induction rounds generalizing m with
  | zero => cases left
  | succ rounds ih =>
      unfold rvLoop at left
      cases ran : m.rvStep with
      | error stop =>
          rw [ran] at left
          cases left
      | ok m' =>
          rw [ran] at left
          simp only at left
          by_cases stays : m.pc = m'.pc
          · rw [if_pos stays] at left
            cases left
            exact ⟨m, .refl, zero, ran, stays.symm⟩
          · rw [if_neg stays] at left
            obtain ⟨before, steps, rest⟩ := ih (rvStep_x0 ran) left
            exact ⟨before, .step ran steps, rest⟩

/-- Where `rv_run` leaves its loop, the machine would do nothing more exactly if the last word is not a jump by
the register it links to. -/
theorem rvRun_forever {m last : Machine} (zero : m.x 0 = 0) {rounds : Nat} {entry : BitVec 32}
    (left : m.rvRun rounds entry = some (.ok last)) :
    ∃ before inst, Steps { m with pc := entry } before ∧ before.memory.readW before.pc = .ok inst ∧
      before.rvStep = .ok last ∧ last.pc = before.pc ∧ (last.rvStep = .ok last ↔ ¬ LinksItself inst) := by
  obtain ⟨before, steps, x0, ran, stays⟩ := @rvLoop_left rounds { m with pc := entry } last zero left
  obtain ⟨inst, fetched, -⟩ := bind_ok.mp ran
  exact ⟨before, inst, steps, fetched, ran, stays, rvStep_again x0 fetched ran stays⟩

/-- `JAL x1, 0` goes on for ever. -/
theorem rvRun_forever_jal : ∃ before inst, Steps (oneWord 0x000000EF fun _ => 0) before ∧
    before.memory.readW before.pc = .ok inst ∧
      before.rvStep = .ok ((oneWord 0x000000EF fun _ => 0).linked 1) ∧
      ((oneWord 0x000000EF fun _ => 0).linked 1).pc = before.pc ∧
      (((oneWord 0x000000EF fun _ => 0).linked 1).rvStep = .ok ((oneWord 0x000000EF fun _ => 0).linked 1) ↔
        ¬ LinksItself inst) :=
  @rvRun_forever (oneWord 0x000000EF fun _ => 0) _ rfl 1 0 rfl

/-- `JALR x1, 0(x1)` at address 0 stays there in the first step, and would go on to address 4 in the next. -/
theorem rvRun_stops_early :
    (oneWord 0x000080E7 fun _ => 0).rvRun 1 0 = some (.ok ((oneWord 0x000080E7 fun _ => 0).linked 1)) ∧
      (((oneWord 0x000080E7 fun _ => 0).linked 1).rvStep).map (fun m => (m.x 1, m.pc)) = .ok (4, 4) ∧
      ((oneWord 0x000080E7 fun _ => 0).linked 1).rvStep ≠ .ok ((oneWord 0x000080E7 fun _ => 0).linked 1) := by
  have moves : (((oneWord 0x000080E7 fun _ => 0).linked 1).rvStep).map (fun m => (m.x 1, m.pc)) =
    .ok (4, 4) := rfl
  refine ⟨rfl, moves, fun same => ?_⟩
  rw [same] at moves
  exact absurd moves (by decide)

end Machine

end Riscv2os.Emulator
