import Riscv2os.Std.RegisterFrame

/-!
# Traps of mini-riscv-os

`trap_vector` with `reg_save` and `reg_load` of `sys.s`, `trap_handler` of `trap.c` and `do_syscall` of
`syscall.c`, in `10-SystemCall`. What the handlers print is left out; what the timer and the
external handler do to the memory, and what C code leaves in the registers, comes with the trap. A
trap that returns to the interrupted code keeps it if and only if `sys_gethid` does not write over the
context and the word where `reg_load` looks for `t6` has its value, because `reg_save` does not
store `t6`.
-/

namespace Riscv2os.MiniRiscvOs

open Riscv2os.Std
open RiscV (Reg writeReg writeReg_zero writeReg_self ra sp gp tp t0 t1 t2 s0 s1 a0 a1 a2 a3 a4 a5 a6
  a7 s2 s3 s4 s5 s6 s7 s8 s9 s10 s11 t3 t4 t5 t6)
open RegisterFrame FlatMemory

/-- The registers of a hart that traps use, and the memory. -/
structure Hart where
  x : Reg → BitVec 32
  pc : BitVec 32
  mscratch : BitVec 32
  mepc : BitVec 32
  memory : FlatMemory

/-- What is fixed when the system is linked and started. -/
structure Board where
  /-- `mhartid` -/
  hartid : BitVec 32
  /-- The address of `os_kernel`. -/
  osKernel : BitVec 32
  /-- The address of `timer_scratch[id]`, where `timer_init` lets `mscratch` point. -/
  frame : BitVec 32

/-- A trap with its cause. -/
structure Trap (b : Board) where
  cause : BitVec 32
  /-- What `timer_handler` or `external_handler` does to the memory. -/
  handled : FlatMemory → FlatMemory
  /-- What `trap_handler` leaves in the registers. -/
  left : Reg → BitVec 32
  leaves : ∀ memory, ∀ i < 128, handled memory (b.frame + BitVec.ofNat 32 i) =
    memory (b.frame + BitVec.ofNat 32 i)

/-- The stores of `reg_save`. -/
def regSave : List Slot :=
  [(ra, 0), (sp, 4), (gp, 8), (tp, 12), (t0, 16), (t1, 20), (t2, 24), (s0, 28), (s1, 32), (a0, 36),
    (a1, 40), (a2, 44), (a3, 48), (a4, 52), (a5, 56), (a6, 60), (a7, 64), (s2, 68), (s3, 72), (s4, 76),
    (s5, 80), (s6, 84), (s7, 88), (s8, 92), (s9, 96), (s10, 100), (s11, 104), (t3, 108), (t4, 112),
    (t5, 116)]

/-- The loads of `reg_load`. -/
def regLoad : List Slot :=
  [(ra, 0), (sp, 4), (gp, 8), (tp, 12), (t0, 16), (t1, 20), (t2, 24), (s0, 28), (s1, 32), (a0, 36),
    (a1, 40), (a2, 44), (a3, 48), (a4, 52), (a5, 56), (a6, 60), (a7, 64), (s2, 68), (s3, 72), (s4, 76),
    (s5, 80), (s6, 84), (s7, 88), (s8, 92), (s9, 96), (s10, 100), (s11, 104), (t3, 108), (t4, 112),
    (t5, 116), (t6, 120)]

/-- The offset of a register in `struct context`. -/
def contextOffset (r : Reg) : Nat := 4 * (r.toNat - 1)

/-- `sys_gethid`: the result, and the memory. -/
def sysGethid (hartid ptrHid : BitVec 32) (memory : FlatMemory) : BitVec 32 × FlatMemory :=
  if ptrHid = 0 then (-1, memory) else (0, memory.store ptrHid hartid)

/-- `do_syscall`. -/
def doSyscall (hartid ctx : BitVec 32) (memory : FlatMemory) : FlatMemory :=
  let syscallNum := memory.load (ctx + BitVec.ofNat 32 (contextOffset a7))
  let a0Field := ctx + BitVec.ofNat 32 (contextOffset a0)
  if syscallNum = 1 then
    let called := sysGethid hartid (memory.load a0Field) memory
    called.2.store a0Field called.1
  else memory.store a0Field (-1)

/-- `trap_handler`: where to return, and the memory. -/
def trapHandler {b : Board} (t : Trap b) (epc cause ctx : BitVec 32) (memory : FlatMemory) :
    BitVec 32 × FlatMemory :=
  let causeCode := cause &&& 0xfff
  if cause &&& 0x80000000 ≠ 0 then
    if causeCode = 3 then (epc, memory)
    else if causeCode = 7 then (b.osKernel, t.handled memory)
    else if causeCode = 11 then (epc, t.handled memory)
    else (epc, memory)
  else
    if causeCode = 2 then (epc, memory)
    else if causeCode = 5 then (epc, memory)
    else if causeCode = 7 then (epc, memory)
    else if causeCode = 8 then (epc + 4, doSyscall b.hartid ctx memory)
    else if causeCode = 11 then (epc + 4, doSyscall b.hartid ctx memory)
    else (epc, memory)

/-- `trap_vector` up to its `mret`. -/
def trapVector {b : Board} (t : Trap b) (h : Hart) : Hart :=
  -- csrrw t6, mscratch, t6
  let x := writeReg h.x t6 h.mscratch
  let memory := saveRegs t6 x regSave h.memory
  -- csrw mscratch, t6: what `t6` was before is gone here
  let mscratch := x t6
  let x := writeReg x a0 h.mepc
  let memory := memory.store (x t6 + BitVec.ofNat 32 124) (x a0)
  let x := writeReg (writeReg (writeReg x a0 h.mepc) a1 t.cause) a2 mscratch
  let handled := trapHandler t (x a0) (x a1) (x a2) memory
  let x := writeReg t.left a0 handled.1
  let mepc := x a0
  let x := writeReg x t6 mscratch
  { x := loadRegs t6 regLoad handled.2 x
    pc := mepc
    mscratch := mscratch
    mepc := mepc
    memory := handled.2 }

/-- The hart takes a trap, and `trap_vector` runs. -/
def Hart.trap {b : Board} (h : Hart) (t : Trap b) : Hart := trapVector t { h with mepc := h.pc }

namespace Trap

variable {b : Board} {t : Trap b}

/-- An external interrupt. -/
def External (t : Trap b) : Prop := t.cause &&& 0x80000000 ≠ 0 ∧ t.cause &&& 0xfff = 11

/-- An environment call, from U-mode or M-mode. -/
def Ecall (t : Trap b) : Prop :=
  t.cause &&& 0x80000000 = 0 ∧ (t.cause &&& 0xfff = 8 ∨ t.cause &&& 0xfff = 11)

instance : Decidable t.External := inferInstanceAs (Decidable (_ ∧ _))

instance : Decidable t.Ecall := inferInstanceAs (Decidable (_ ∧ _))

end Trap

/-- The result of the system call that the registers ask for. -/
def Hart.syscallResult (h : Hart) : BitVec 32 := if h.x a7 = 1 then if h.x a0 = 0 then -1 else 0 else -1

/-- The interrupted code goes on as it should. -/
structure Resumes {b : Board} (t : Trap b) (h h' : Hart) : Prop where
  external : t.External → h'.pc = h.pc ∧ ∀ r, r ≠ 0 → h'.x r = h.x r
  ecall : t.Ecall → h'.pc = h.pc + 4 ∧ h'.x a0 = h.syscallResult ∧
    ∀ r, r ≠ 0 → r ≠ a0 → h'.x r = h.x r

/-- The byte that `sys_gethid` stores at an address, if it does. -/
def gethidByte {b : Board} (t : Trap b) (h : Hart) (a : BitVec 32) : Option (BitVec 8) :=
  if t.Ecall ∧ h.x a7 = 1 ∧ h.x a0 ≠ 0 ∧ (a - h.x a0).toNat < 4 then
    some (byteOf b.hartid (a - h.x a0).toNat)
  else none

/-- The hart number that the system call stores does not change the context, and the word that is
loaded into `t6` has its value. -/
structure Kept {b : Board} (t : Trap b) (h : Hart) : Prop where
  context : ∀ r, r ≠ 0 → r ≠ a0 → ∀ k < 4, ∀ v,
    gethidByte t h (b.frame + BitVec.ofNat 32 (contextOffset r + k)) = some v → v = byteOf (h.x r) k
  t6 : ∀ k < 4, gethidByte t h (b.frame + BitVec.ofNat 32 (120 + k)) = none →
    h.memory (b.frame + BitVec.ofNat 32 (120 + k)) = byteOf (h.x t6) k

section Frame

variable {b : Board} {t : Trap b} {h : Hart} {r : Reg} {i k : Nat}

/-- The memory when `trap_handler` is called. -/
def Hart.saved (h : Hart) : FlatMemory :=
  (saveRegs t6 (writeReg h.x t6 h.mscratch) regSave h.memory).store (h.mscratch + BitVec.ofNat 32 124) h.pc

theorem regSave_apart : Apart regSave := by decide

theorem mem_regSave : ∀ r : Reg, r ≠ 0 → r ≠ t6 → (r, contextOffset r) ∈ regSave := by decide

theorem contextOffset_le : ∀ r : Reg, r ≠ 0 → contextOffset r ≤ 120 := by decide

/-- What `trap_vector` does, without the steps. -/
theorem trap_eq : h.trap t =
    { x := loadRegs t6 regLoad (trapHandler t h.pc t.cause h.mscratch h.saved).2
        (writeReg (writeReg t.left a0 (trapHandler t h.pc t.cause h.mscratch h.saved).1) t6 h.mscratch)
      pc := (trapHandler t h.pc t.cause h.mscratch h.saved).1
      mscratch := h.mscratch
      mepc := (trapHandler t h.pc t.cause h.mscratch h.saved).1
      memory := (trapHandler t h.pc t.cause h.mscratch h.saved).2 } := rfl

/-- Every register but `t6` is in the context. -/
theorem saved_slot (positive : r ≠ 0) (other : r ≠ t6) (small : k < 4) :
    h.saved (h.mscratch + BitVec.ofNat 32 (contextOffset r + k)) = byteOf (h.x r) k := by
  have le := contextOffset_le r positive
  have slot := saveRegs_slot (b := t6) (x := writeReg h.x t6 h.mscratch) (m := h.memory) regSave_apart
    (mem_regSave r positive other) small
  rw [writeReg_self _ (by decide)] at slot
  rw [Hart.saved, store_offset (by omega) (by omega), if_neg (by omega), slot, writeReg, if_neg positive,
    if_neg other]

/-- The word of `t6` is as it was. -/
theorem saved_t6 (small : k < 4) : h.saved (h.mscratch + BitVec.ofNat 32 (120 + k)) =
    h.memory (h.mscratch + BitVec.ofNat 32 (120 + k)) := by
  have outside : ∀ s ∈ regSave, s.2 + 4 ≤ 120 := by decide
  have slot := saveRegs_outside (b := t6) (x := writeReg h.x t6 h.mscratch) (m := h.memory) (i := 120 + k)
    regSave_apart (by omega) fun s member => .inr (by have := outside s member; omega)
  rw [writeReg_self _ (by decide)] at slot
  rw [Hart.saved, store_offset (by omega) (by omega), if_neg (by omega), slot]

theorem saved_load (positive : r ≠ 0) (other : r ≠ t6) :
    h.saved.load (h.mscratch + BitVec.ofNat 32 (contextOffset r)) = h.x r := by
  refine load_eq_iff.mpr fun k small => ?_
  rw [add_offset]
  exact saved_slot positive other small

theorem doSyscall_eq (framed : h.mscratch = b.frame) (ecall : t.Ecall) :
    ∃ result memory, doSyscall b.hartid b.frame h.saved =
        FlatMemory.store memory (b.frame + BitVec.ofNat 32 (contextOffset a0)) result ∧
      result = h.syscallResult ∧ ∀ a, memory a = (gethidByte t h a).getD (h.saved a) := by
  have number : h.saved.load (b.frame + BitVec.ofNat 32 (contextOffset a7)) = h.x a7 := by
    rw [← framed]
    exact saved_load (by decide) (by decide)
  have argument : h.saved.load (b.frame + BitVec.ofNat 32 (contextOffset a0)) = h.x a0 := by
    rw [← framed]
    exact saved_load (by decide) (by decide)
  unfold doSyscall
  simp only [number, argument]
  by_cases gethid : h.x a7 = 1
  · rw [if_pos gethid]
    by_cases null : h.x a0 = 0
    · refine ⟨-1, h.saved, ?_, ?_, fun a => ?_⟩
      · rw [sysGethid, if_pos null]
      · rw [Hart.syscallResult, if_pos gethid, if_pos null]
      · rw [gethidByte, if_neg fun all => all.2.2.1 null]
        rfl
    · refine ⟨0, h.saved.store (h.x a0) b.hartid, ?_, ?_, fun a => ?_⟩
      · rw [sysGethid, if_neg null]
      · rw [Hart.syscallResult, if_pos gethid, if_neg null]
      · rw [gethidByte, store]
        by_cases near : (a - h.x a0).toNat < 4
        · rw [if_pos near, if_pos ⟨ecall, gethid, null, near⟩]
          rfl
        · rw [if_neg near, if_neg fun all => near all.2.2.2]
          rfl
  · rw [if_neg gethid]
    refine ⟨-1, h.saved, rfl, ?_, fun a => ?_⟩
    · rw [Hart.syscallResult, if_neg gethid]
    · rw [gethidByte, if_neg fun all => gethid all.2.1]
      rfl

theorem trapHandler_external (external : t.External) (epc ctx : BitVec 32) (memory : FlatMemory) :
    trapHandler t epc t.cause ctx memory = (epc, t.handled memory) := by
  obtain ⟨interrupt, code⟩ := external
  unfold trapHandler
  simp only [code]
  rw [if_pos interrupt, if_neg (by decide), if_neg (by decide), if_pos trivial]

theorem trapHandler_ecall (ecall : t.Ecall) (epc ctx : BitVec 32) (memory : FlatMemory) :
    trapHandler t epc t.cause ctx memory = (epc + 4, doSyscall b.hartid ctx memory) := by
  obtain ⟨exception, code⟩ := ecall
  unfold trapHandler
  dsimp only
  rw [if_neg (not_not.mpr exception)]
  obtain code | code := code <;> simp only [code]
  · rw [if_neg (by decide), if_neg (by decide), if_neg (by decide), if_pos trivial]
  · rw [if_neg (by decide), if_neg (by decide), if_neg (by decide), if_neg (by decide), if_pos trivial]

/-- Every register has the word of its place in the context when `trap_vector` ends. -/
theorem trap_x (positive : r ≠ 0) : (h.trap t).x r =
    (h.trap t).memory.load (h.mscratch + BitVec.ofNat 32 (contextOffset r)) := by
  have loads : regLoad = regSave ++ [(t6, 120)] := rfl
  have base : ∀ {x m}, x 0 = 0 → x t6 = h.mscratch → loadRegs t6 regSave m x t6 = h.mscratch :=
    fun {x m} zero is => (loadRegs_outside zero (by decide)).trans is
  have zero : ∀ {m x}, loadRegs t6 regLoad m x r =
      writeReg (loadRegs t6 regSave m x) t6
        (m.load (loadRegs t6 regSave m x t6 + BitVec.ofNat 32 120)) r := by
    intro m x
    rw [loads, loadRegs, List.foldl_append]
    rfl
  rw [trap_eq]
  dsimp only
  generalize (trapHandler t h.pc t.cause h.mscratch h.saved) = handled
  have start : writeReg (writeReg t.left a0 handled.1) t6 h.mscratch t6 = h.mscratch :=
    writeReg_self _ (by decide) _
  rw [zero, base (writeReg_zero ..) start, writeReg, if_neg positive]
  split
  · next is => rw [is]; rfl
  · next other =>
    have distinct : regSave.Pairwise fun s s' => s.1 ≠ s'.1 := by decide
    have slot := loadRegs_slot (b := t6) (m := handled.2)
      (x := writeReg (writeReg t.left a0 handled.1) t6 h.mscratch) distinct (by decide) (by decide)
      (mem_regSave r positive other) positive
    rw [start] at slot
    exact slot

/-- A register is restored if and only if its bytes in the context are its own. -/
theorem trap_x_iff (framed : h.mscratch = b.frame) (positive : r ≠ 0) : (h.trap t).x r = h.x r ↔
    ∀ k < 4, (h.trap t).memory (b.frame + BitVec.ofNat 32 (contextOffset r + k)) = byteOf (h.x r) k := by
  rw [trap_x positive, load_eq_iff, framed]
  simp only [add_offset]

theorem External.not_ecall (external : t.External) : ¬ t.Ecall := fun ecall => external.1 ecall.1

/-- The context when it is loaded, without the word of `a0`. -/
theorem trap_memory (framed : h.mscratch = b.frame) (returns : t.External ∨ t.Ecall) (inside : i < 124)
    (other : ¬ (36 ≤ i ∧ i < 40)) : (h.trap t).memory (b.frame + BitVec.ofNat 32 i) =
      (gethidByte t h (b.frame + BitVec.ofNat 32 i)).getD (h.saved (b.frame + BitVec.ofNat 32 i)) := by
  rw [trap_eq]
  dsimp only
  obtain external | ecall := returns
  · rw [trapHandler_external external, gethidByte, if_neg fun all => External.not_ecall external all.1]
    exact t.leaves _ i (by omega)
  · obtain ⟨result, memory, ran, _, stored⟩ := doSyscall_eq framed ecall
    have place : contextOffset a0 = 36 := by decide
    rw [trapHandler_ecall ecall, framed, ran, place, ← stored]
    dsimp only
    rw [store_offset (by omega) (by omega), if_neg other]

/-- When a register other than `a0` is restored. -/
theorem restored_iff (framed : h.mscratch = b.frame) (returns : t.External ∨ t.Ecall) (positive : r ≠ 0)
    (other : r ≠ a0) : (h.trap t).x r = h.x r ↔
      (∀ k < 4, ∀ v, gethidByte t h (b.frame + BitVec.ofNat 32 (contextOffset r + k)) = some v →
        v = byteOf (h.x r) k) ∧
      (r = t6 → ∀ k < 4, gethidByte t h (b.frame + BitVec.ofNat 32 (120 + k)) = none →
        h.memory (b.frame + BitVec.ofNat 32 (120 + k)) = byteOf (h.x t6) k) := by
  have le := contextOffset_le r positive
  have apart : ∀ r : Reg, r ≠ 0 → r ≠ a0 → contextOffset r + 4 ≤ 36 ∨ 40 ≤ contextOffset r := by decide
  have here := apart r positive other
  have byte : ∀ k < 4, (h.trap t).memory (b.frame + BitVec.ofNat 32 (contextOffset r + k)) =
      (gethidByte t h (b.frame + BitVec.ofNat 32 (contextOffset r + k))).getD
        (h.saved (b.frame + BitVec.ofNat 32 (contextOffset r + k))) :=
    fun k small => trap_memory framed returns (by omega) (by omega)
  rw [trap_x_iff framed positive]
  constructor
  · intro restored
    refine ⟨fun k small v stored => ?_, ?_⟩
    · rw [← restored k small, byte k small, stored]
      rfl
    · rintro rfl k small kept
      have word := restored k small
      have place : contextOffset t6 = 120 := by decide
      rw [byte k small, place, kept, ← framed] at word
      rw [← word, ← framed]
      exact (saved_t6 small).symm
  · rintro ⟨context, last⟩ k small
    rw [byte k small]
    cases stored : gethidByte t h (b.frame + BitVec.ofNat 32 (contextOffset r + k)) with
    | some v => exact context k small v stored
    | none =>
        by_cases is : r = t6
        · subst is
          have place : contextOffset t6 = 120 := by decide
          rw [place] at stored ⊢
          rw [← last rfl k small stored, ← framed]
          exact saved_t6 small
        · rw [← framed]
          exact saved_slot positive is small

/-- One trap that returns keeps the interrupted code if and only if the context is kept. -/
theorem resumes_iff (framed : h.mscratch = b.frame) (returns : t.External ∨ t.Ecall) :
    Resumes t h (h.trap t) ↔ Kept t h := by
  constructor
  · intro resumes
    have same : ∀ r, r ≠ 0 → r ≠ a0 → (h.trap t).x r = h.x r := by
      intro r positive other
      obtain external | ecall := returns
      · exact (resumes.external external).2 r positive
      · exact (resumes.ecall ecall).2.2 r positive other
    exact ⟨fun r positive other => ((restored_iff framed returns positive other).mp (same r positive other)).1,
      ((restored_iff framed returns (by decide) (by decide)).mp (same t6 (by decide) (by decide))).2 rfl⟩
  · intro kept
    have same : ∀ r, r ≠ 0 → r ≠ a0 → (h.trap t).x r = h.x r := fun r positive other =>
      (restored_iff framed returns positive other).mpr ⟨kept.context r positive other, fun _ => kept.t6⟩
    refine ⟨fun external => ⟨?_, fun r positive => ?_⟩, fun ecall => ⟨?_, ?_, same⟩⟩
    · rw [trap_eq, trapHandler_external external]
    · by_cases is : r = a0
      · subst is
        rw [trap_x positive, trap_eq, trapHandler_external external]
        refine load_eq_iff.mpr fun k small => ?_
        have place : contextOffset a0 = 36 := by decide
        have slot := saved_slot (h := h) (r := a0) positive (by decide) small
        rw [place] at slot
        rw [framed] at slot
        rw [add_offset, place, framed]
        exact (t.leaves h.saved (36 + k) (by omega)).trans slot
      · exact same r positive is
    · rw [trap_eq, trapHandler_ecall ecall]
    · obtain ⟨result, memory, ran, is, _⟩ := doSyscall_eq framed ecall
      rw [trap_x (by decide), trap_eq, trapHandler_ecall ecall, framed]
      dsimp only
      rw [ran, load_store_self, is]

end Frame

/-- What the interrupted code does up to the next trap. It does not write `mscratch`. -/
structure Between where
  run : Hart → Hart
  keeps : ∀ h, (run h).mscratch = h.mscratch

/-- A property of every trap of a run, in the state where it is taken. -/
def EachTrap {b : Board} (P : Trap b → Hart → Prop) : Hart → List (Trap b × Between) → Prop
  | _, [] => True
  | h, event :: rest => P event.1 h ∧ EachTrap P (event.2.run (h.trap event.1)) rest

/-- In a run of traps that return, all of them keep the interrupted code if and only if the context is
kept in each. -/
theorem traps_resume_iff {b : Board} {h : Hart} (framed : h.mscratch = b.frame)
    (events : List (Trap b × Between)) (returns : ∀ event ∈ events, event.1.External ∨ event.1.Ecall) :
    EachTrap (fun t h => Resumes t h (h.trap t)) h events ↔ EachTrap Kept h events := by
  induction events generalizing h with
  | nil => exact Iff.rfl
  | cons event rest ih =>
      have next : (event.2.run (h.trap event.1)).mscratch = b.frame := (event.2.keeps _).trans framed
      exact and_congr (resumes_iff framed (returns event List.mem_cons_self))
        (ih next fun event' member => returns event' (.tail _ member))

/-- A board with its trap frame. -/
def board : Board := ⟨0, 0x80001000, 0x80010000⟩

/-- A hart with one value in `t6`, and memory that is zero. -/
def Hart.withT6 (value : BitVec 32) : Hart :=
  ⟨fun r => if r = t6 then value else 0, 0x80002000, board.frame, 0, fun _ => 0⟩

/-- An external interrupt whose handler does nothing. -/
def externalInterrupt : Trap board := ⟨0x8000000b, id, fun _ => 0, fun _ _ _ => rfl⟩

/-- A hart with another value in every register, and that of `t6` in the last slot of the frame. -/
def Hart.distinct : Hart :=
  ⟨fun r => r.setWidth 32 * 0x01010101, 0x80002000, board.frame, 0, fun _ => 0x1f⟩

/-- After the interrupt all registers are what they were. -/
theorem traps_resume_distinct :
    EachTrap (fun t h => Resumes t h (h.trap t)) Hart.distinct [(externalInterrupt, ⟨id, fun _ => rfl⟩)] ∧
      (Hart.distinct.trap externalInterrupt).x 30 = 0x1e1e1e1e ∧
      (Hart.distinct.trap externalInterrupt).x 31 = 0x1f1f1f1f := by
  have resumes : EachTrap (fun t h => Resumes t h (h.trap t)) Hart.distinct
      [(externalInterrupt, ⟨id, fun _ => rfl⟩)] := by
    refine (traps_resume_iff rfl _ ?_).mpr ⟨⟨?_, ?_⟩, trivial⟩
    · rintro event (_ | ⟨_, ⟨⟩⟩)
      exact .inl (by decide)
    · intro r _ _ k _ v stored
      rw [gethidByte, if_neg fun all => External.not_ecall (by decide) all.1] at stored
      cases stored
    · intro k small _
      interval_cases k <;> rfl
  have same := (resumes.1.external (by decide)).2
  exact ⟨resumes, (same 30 (by decide)).trans (by decide), (same 31 (by decide)).trans (by decide)⟩

/-- The first external interrupt takes the value of `t6` away. -/
theorem trap_loses_t6 : externalInterrupt.External ∧ (Hart.withT6 1).x t6 = 1 ∧
    ((Hart.withT6 1).trap externalInterrupt).x t6 = 0 ∧
    ¬ EachTrap (fun t h => Resumes t h (h.trap t)) (Hart.withT6 1)
      [(externalInterrupt, ⟨id, fun _ => rfl⟩)] := by
  have lost : ((Hart.withT6 1).trap externalInterrupt).x t6 = 0 := by decide +kernel
  refine ⟨by decide, rfl, lost, fun each => ?_⟩
  have same := (each.1.external (by decide)).2 t6 (by decide)
  rw [lost] at same
  exact absurd same (by decide)

end Riscv2os.MiniRiscvOs
