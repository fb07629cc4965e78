import Riscv2os.MiniRiscvOs.Trap
import Riscv2os.Std.TransitionSystem

/-!
# Preemption in mini-riscv-os

The way of a task through a timer interrupt in `10-SystemCall`: `trap_handler` returns to `os_kernel`,
whose `task_os` calls `sys_switch`; `os_main` goes round the tasks with `task_go`. The two assembler
routines are followed exactly. Of the C code between them the calling convention is used: it returns
to where it was called from with the callee-saved registers as they were, it leaves `tp` alone, and
what it leaves in the other registers is a parameter. The interrupted pc is saved at offset 124 of
the trap frame, which nothing reads: a task goes on where its `ra` points. A timer interrupt can come
in the code of a task, in `os_kernel` and in `task_os`; from `ctx_now = &ctx_os` to the end of
`sys_switch` it is one step.
-/

namespace Riscv2os.MiniRiscvOs

open Riscv2os.Std
open RiscV (Reg writeReg writeReg_zero writeReg_self ra sp gp tp s0 s1 a0 a7 s2 s3 s4 s5 s6 s7 s8 s9 s10
  s11 t6)
open RegisterFrame FlatMemory

/-- The words of a `struct context` by their offsets. -/
abbrev Context := Nat → BitVec 32

/-- `&ctx_os` or `&ctx_tasks[i]`. -/
inductive CtxRef where
  | os
  | task (i : Nat)
deriving DecidableEq, Repr

/-- The registers of `ctx_save`. -/
def ctxSaved : List Slot :=
  [(ra, 0), (sp, 4), (s0, 8), (s1, 12), (s2, 16), (s3, 20), (s4, 24), (s5, 28), (s6, 32), (s7, 36), (s8, 40),
    (s9, 44), (s10, 48), (s11, 52), (a0, 56), (a7, 60)]

/-- The registers of `ctx_load`. -/
def ctxLoaded : List Slot :=
  [(ra, 0), (sp, 4), (s0, 8), (s1, 12), (s2, 16), (s3, 20), (s4, 24), (s5, 28), (s6, 32), (s7, 36), (s8, 40),
    (s9, 44), (s10, 48), (s11, 52), (a0, 56), (a7, 60)]

def ctxSave (x : Reg → BitVec 32) (c : Context) : Context :=
  ctxSaved.foldl (fun c s => Function.update c s.2 (x s.1)) c

def ctxLoad (c : Context) (x : Reg → BitVec 32) : Reg → BitVec 32 :=
  ctxLoaded.foldl (fun x s => writeReg x s.1 (c s.2)) x

/-- `sys_switch`. Its `ret` goes to the `ra` that is loaded. -/
def sysSwitch (old new : CtxRef) (x : Reg → BitVec 32) (ctx : CtxRef → Context) :
    (Reg → BitVec 32) × (CtxRef → Context) :=
  let ctx := Function.update ctx old (ctxSave x (ctx old))
  (ctxLoad (ctx new) x, ctx)

/-- The registers that a function keeps for its caller. -/
def calleeSaved : List Reg := [sp, s0, s1, s2, s3, s4, s5, s6, s7, s8, s9, s10, s11]

/-- What is on the stack of a task that waits in `task_os`: the registers that `os_kernel` was entered
with, and the ones that `sys_switch` was called with. -/
structure Activation where
  entry : Reg → BitVec 32
  call : Reg → BitVec 32

inductive TaskStack where
  /-- `task_create` only. -/
  | fresh
  | running
  | waiting (a : Activation)

/-- Which code the hart runs. -/
inductive Point where
  /-- `os_main` -/
  | os
  /-- The code of a task. -/
  | task (i : Nat)
  /-- `os_kernel`, to which the trap handler has returned, up to `ctx_now = &ctx_os` in `task_os`. -/
  | kernel (i : Nat)
  /-- `task_os`, to which `sys_switch` has returned, up to the end of `os_kernel`. -/
  | back (i : Nat)
deriving DecidableEq, Repr

/-- The hart runs on the stack of the task. -/
def Point.On (i : Nat) : Point → Prop
  | os => False
  | task j => j = i
  | kernel j => j = i
  | back j => j = i

/-- The state of the system. -/
structure Tasks where
  hart : Hart
  ctx : CtxRef → Context
  ctxNow : CtxRef
  currentTask : Nat
  stack : Nat → TaskStack
  point : Point

/-- The number of tasks, and what the compiled code leaves in the registers. -/
structure Program where
  taskTop : Nat
  /-- When `task_os` calls `sys_switch`. -/
  taskOs : Tasks → Reg → BitVec 32
  /-- When `task_go` calls `sys_switch`. -/
  taskGo : Tasks → Reg → BitVec 32
  /-- When `os_kernel` returns. -/
  osKernel : Tasks → Reg → BitVec 32
  taskOs_keeps : ∀ s, taskOs s tp = s.hart.x tp
  taskGo_keeps : ∀ s, taskGo s tp = s.hart.x tp
  osKernel_keeps : ∀ s, osKernel s tp = s.hart.x tp

/-- A timer interrupt. -/
def Trap.Timer {b : Board} (t : Trap b) : Prop := t.cause &&& 0x80000000 ≠ 0 ∧ t.cause &&& 0xfff = 7

namespace Tasks

variable (p : Program)

/-- `os_kernel` up to the switch to `os_main`, which then takes the next task. -/
def taskOs (s : Tasks) (i : Nat) : Tasks :=
  let x := p.taskOs s
  let switched := sysSwitch s.ctxNow .os x s.ctx
  { hart := { s.hart with x := switched.1, pc := switched.1 ra }
    ctx := switched.2
    ctxNow := .os
    currentTask := (s.currentTask + 1) % p.taskTop
    stack := Function.update s.stack i (.waiting ⟨s.hart.x, x⟩)
    point := .os }

/-- `task_go` up to the switch. A fresh task begins at its function, another one in `task_os`. -/
def taskGo (s : Tasks) : Tasks :=
  let i := s.currentTask
  let switched := sysSwitch .os (.task i) (p.taskGo s) s.ctx
  { hart := { s.hart with x := switched.1, pc := switched.1 ra }
    ctx := switched.2
    ctxNow := .task i
    currentTask := i
    stack := match s.stack i with
      | .fresh => Function.update s.stack i .running
      | _ => s.stack
    point := match s.stack i with
      | .fresh => .task i
      | _ => .back i }

/-- `task_os` and `os_kernel` return. -/
def back (s : Tasks) (i : Nat) (a : Activation) : Tasks :=
  { s with
    hart := { s.hart with
      x := fun r => if r ∈ calleeSaved then a.entry r else p.osKernel s r
      pc := a.entry ra }
    stack := Function.update s.stack i .running
    point := .task i }

end Tasks

/-- What happens in a step. -/
inductive Event (b : Board) where
  | run
  | timer (t : Trap b)
  | taskOs
  | taskGo
  | back

/-- A step of the system. -/
inductive Tasks.Step (b : Board) (p : Program) : Tasks → Event b → Tasks → Prop where
  /-- The task changes registers and memory, but neither `mscratch` nor a context. -/
  | run {s : Tasks} {i : Nat} {h : Hart} (inTask : s.point = .task i)
      (keeps : h.mscratch = s.hart.mscratch) : Step b p s .run { s with hart := h }
  | timer {s : Tasks} {i : Nat} {t : Trap b} (on : s.point.On i) (timer : t.Timer) :
      Step b p s (.timer t)
        { s with hart := s.hart.trap t, stack := Function.update s.stack i .running, point := .kernel i }
  | taskOs {s : Tasks} {i : Nat} (entered : s.point = .kernel i) : Step b p s .taskOs (s.taskOs p i)
  | taskGo {s : Tasks} (inOs : s.point = .os) : Step b p s .taskGo (s.taskGo p)
  /-- By the calling convention, since `sys_switch` has returned with the registers of its call. -/
  | back {s : Tasks} {i : Nat} {a : Activation} (returned : s.point = .back i)
      (waits : s.stack i = .waiting a) (link : s.hart.x ra = a.call ra)
      (kept : ∀ r ∈ calleeSaved, s.hart.x r = a.call r) : Step b p s .back (s.back p i a)

/-- The system from the first round of `os_main` on. -/
def preemptSystem (b : Board) (p : Program) : TransitionSystem Tasks (Event b) where
  Initial s := s.hart.mscratch = b.frame ∧ s.currentTask = 0 ∧ 0 < p.taskTop ∧ s.point = .os ∧
    ∀ i, s.stack i = .fresh
  Step := Tasks.Step b p

/-- The timer interrupts the code on the stack of a task, which is left for `os_main` and any other tasks,
and later switched back to. -/
def SwitchedBack (b : Board) (p : Program) (i : Nat) (s s' : Tasks) : Prop :=
  ∃ (t : Trap b) (s1 s2 s3 : Tasks), Tasks.Step b p s (.timer t) s1 ∧ s1.point = .kernel i ∧
    Tasks.Step b p s1 .taskOs s2 ∧
    (preemptSystem b p).StepsUnder (fun state _ => ¬ state.point.On i) s2 s3 ∧
    Tasks.Step b p s3 .back s' ∧ s'.point = .task i

/-- The interrupted code does not notice. -/
def Transparent (s s' : Tasks) : Prop :=
  s'.hart.pc = s.hart.pc ∧ ∀ r, r ≠ 0 → s'.hart.x r = s.hart.x r

section Contexts

variable {c : Context} {x : Reg → BitVec 32} {r : Reg} {s : Slot}

theorem foldl_update_outside {slots : List Slot} {offset : Nat} (outside : ∀ s ∈ slots, s.2 ≠ offset) :
    slots.foldl (fun c s => Function.update c s.2 (x s.1)) c offset = c offset := by
  induction slots generalizing c with
  | nil => rfl
  | cons s slots ih =>
      rw [List.foldl_cons, ih fun s' member => outside s' (.tail _ member),
        Function.update_of_ne (outside s List.mem_cons_self).symm]

theorem foldl_update_slot {slots : List Slot} (distinct : slots.Pairwise fun s s' => s.2 ≠ s'.2)
    (member : s ∈ slots) : slots.foldl (fun c s => Function.update c s.2 (x s.1)) c s.2 = x s.1 := by
  induction slots generalizing c with
  | nil => exact absurd member List.not_mem_nil
  | cons s' slots ih =>
      rw [List.foldl_cons]
      obtain rfl | later := List.mem_cons.mp member
      · rw [foldl_update_outside fun s' member' => ((List.pairwise_cons.mp distinct).1 s' member').symm,
          Function.update_self]
      · exact ih (List.pairwise_cons.mp distinct).2 later

/-- `ctx_save` stores every register at its offset. -/
theorem ctxSave_slot (member : s ∈ ctxSaved) : ctxSave x c s.2 = x s.1 :=
  foldl_update_slot (by decide) member

theorem foldl_write_outside {slots : List Slot} (positive : r ≠ 0) (outside : ∀ s ∈ slots, s.1 ≠ r) :
    slots.foldl (fun x s => writeReg x s.1 (c s.2)) x r = x r := by
  induction slots generalizing x with
  | nil => rfl
  | cons s slots ih =>
      rw [List.foldl_cons, ih fun s' member => outside s' (.tail _ member), writeReg, if_neg positive,
        if_neg (outside s List.mem_cons_self).symm]

theorem foldl_write_slot {slots : List Slot} (distinct : slots.Pairwise fun s s' => s.1 ≠ s'.1)
    (member : s ∈ slots) (positive : s.1 ≠ 0) :
    slots.foldl (fun x s => writeReg x s.1 (c s.2)) x s.1 = c s.2 := by
  induction slots generalizing x with
  | nil => exact absurd member List.not_mem_nil
  | cons s' slots ih =>
      rw [List.foldl_cons]
      obtain rfl | later := List.mem_cons.mp member
      · rw [foldl_write_outside positive fun s' member' => ((List.pairwise_cons.mp distinct).1 s' member').symm,
          writeReg_self _ positive]
      · exact ih (List.pairwise_cons.mp distinct).2 later

/-- `ctx_load` loads every register from its offset. -/
theorem ctxLoad_slot (member : s ∈ ctxLoaded) : ctxLoad c x s.1 = c s.2 := by
  have positive : ∀ s ∈ ctxLoaded, s.1 ≠ 0 := by decide
  exact foldl_write_slot (by decide) member (positive s member)

/-- `sys_switch` leaves `tp` as it is. -/
theorem ctxLoad_tp : ctxLoad c x tp = x tp := foldl_write_outside (by decide) (by decide)

end Contexts

section Timer

variable {b : Board} {t : Trap b} {h : Hart} {r : Reg}

theorem trapHandler_timer (timer : t.Timer) (epc ctx : BitVec 32) (memory : FlatMemory) :
    trapHandler t epc t.cause ctx memory = (b.osKernel, t.handled memory) := by
  obtain ⟨interrupt, code⟩ := timer
  unfold trapHandler
  simp only [code]
  rw [if_pos interrupt, if_neg (by decide), if_pos trivial]

/-- `os_kernel` is entered with the registers of the interrupted code but `t6`. -/
theorem trap_timer (framed : h.mscratch = b.frame) (timer : t.Timer) (positive : r ≠ 0) (other : r ≠ t6) :
    (h.trap t).x r = h.x r := by
  have le := contextOffset_le r positive
  have last : contextOffset r ≤ 116 := by
    have all : ∀ r : Reg, r ≠ 0 → r ≠ t6 → contextOffset r ≤ 116 := by decide
    exact all r positive other
  rw [trap_x_iff framed positive, trap_eq, trapHandler_timer timer]
  intro k small
  have slot := saved_slot (h := h) positive other small
  rw [framed] at slot
  exact (t.leaves h.saved _ (by omega)).trans slot

end Timer

/-- What holds in every state of a run. -/
structure Tasks.Sound (b : Board) (p : Program) (s : Tasks) : Prop where
  frame : s.hart.mscratch = b.frame
  current : s.currentTask < p.taskTop
  on : ∀ i, s.point.On i → i = s.currentTask ∧ s.ctxNow = .task i
  runs : ∀ i, s.stack i = .running → s.point.On i
  saved : ∀ i a, s.stack i = .waiting a → ∀ slot ∈ ctxSaved, s.ctx (.task i) slot.2 = a.call slot.1
  returned : ∀ i, s.point = .back i → ∃ a, s.stack i = .waiting a ∧
    ∀ slot ∈ ctxSaved, s.hart.x slot.1 = a.call slot.1

namespace Tasks

variable {b : Board} {p : Program} {s s' : Tasks} {i j : Nat} {a : Activation} {e : Event b}

theorem On.unique {point : Point} (on : point.On i) (on' : point.On j) : i = j := by
  cases point with
  | os => exact on.elim
  | task k => exact on.symm.trans on'
  | kernel k => exact on.symm.trans on'
  | back k => exact on.symm.trans on'

/-- The task that runs is the only one that does not wait. -/
theorem Sound.alone (sound : s.Sound b p) (on : s.point.On i) (other : j ≠ i) : s.stack j ≠ .running :=
  fun running => other (On.unique (sound.runs j running) on)

section TaskGo

theorem taskGo_fresh (fresh : s.stack s.currentTask = .fresh) :
    (s.taskGo p).stack = Function.update s.stack s.currentTask .running ∧
      (s.taskGo p).point = .task s.currentTask := by
  simp only [taskGo, fresh, and_self]

theorem taskGo_waiting (waits : s.stack s.currentTask = .waiting a) :
    (s.taskGo p).stack = s.stack ∧ (s.taskGo p).point = .back s.currentTask := by
  simp only [taskGo, waits, and_self]

theorem taskGo_ctx : (s.taskGo p).ctx (.task i) = s.ctx (.task i) := by
  have switched : (s.taskGo p).ctx =
      Function.update s.ctx .os (ctxSave (p.taskGo s) (s.ctx .os)) := rfl
  rw [switched, Function.update_of_ne (by simp)]

theorem taskGo_x : (s.taskGo p).hart.x =
    ctxLoad ((s.taskGo p).ctx (.task s.currentTask)) (p.taskGo s) := rfl

/-- What `task_go` loads is what was saved. -/
theorem taskGo_slot {slot : Slot} (member : slot ∈ ctxLoaded) :
    (s.taskGo p).hart.x slot.1 = s.ctx (.task s.currentTask) slot.2 := by
  rw [taskGo_x, ctxLoad_slot member, taskGo_ctx]

theorem taskGo_tp : (s.taskGo p).hart.x tp = s.hart.x tp := by
  rw [taskGo_x, ctxLoad_tp, p.taskGo_keeps]

end TaskGo

theorem taskOs_x : (s.taskOs p i).hart.x = ctxLoad ((s.taskOs p i).ctx .os) (p.taskOs s) := rfl

theorem taskOs_stack : (s.taskOs p i).stack i = .waiting ⟨s.hart.x, p.taskOs s⟩ :=
  Function.update_self i _ s.stack

theorem taskOs_tp : (s.taskOs p i).hart.x tp = s.hart.x tp := by
  rw [taskOs_x, ctxLoad_tp, p.taskOs_keeps]

/-- What `task_os` saves. -/
theorem taskOs_slot (now : s.ctxNow = .task i) {slot : Slot} (member : slot ∈ ctxSaved) :
    (s.taskOs p i).ctx (.task i) slot.2 = p.taskOs s slot.1 := by
  have here : (s.taskOs p i).ctx (.task i) = ctxSave (p.taskOs s) (s.ctx (.task i)) := by
    show Function.update s.ctx s.ctxNow _ (.task i) = _
    rw [now, Function.update_self]
  rw [here, ctxSave_slot member]

theorem taskOs_ctx (now : s.ctxNow = .task i) (other : j ≠ i) :
    (s.taskOs p i).ctx (.task j) = s.ctx (.task j) := by
  show Function.update s.ctx s.ctxNow _ (.task j) = _
  rw [now, Function.update_of_ne]
  simpa using other

theorem back_tp : (s.back p i a).hart.x tp = s.hart.x tp := by
  have other : tp ∉ calleeSaved := by decide
  show (if tp ∈ calleeSaved then a.entry tp else p.osKernel s tp) = _
  rw [if_neg other, p.osKernel_keeps]

/-- The hart stays on the stack of the task, but what waited there is gone. -/
theorem Sound.takes (sound : s.Sound b p) (on : s.point.On i) {h : Hart} {point : Point}
    (frame : h.mscratch = b.frame) (on' : point.On i) (running : ∀ k, point ≠ .back k) :
    Sound b p { s with hart := h, stack := Function.update s.stack i .running, point := point } := by
  obtain ⟨isCurrent, now⟩ := sound.on i on
  refine ⟨frame, sound.current, fun k onK => ?_, fun k runs => ?_, fun k a waits => ?_,
    fun k returned => (running k returned).elim⟩
  · rw [On.unique onK on']
    exact ⟨isCurrent, now⟩
  · by_cases is : k = i
    · rw [is]
      exact on'
    · have before : Function.update s.stack i .running k = .running := runs
      rw [Function.update_of_ne is] at before
      exact (sound.alone on is before).elim
  · have before : Function.update s.stack i .running k = .waiting a := waits
    by_cases is : k = i
    · rw [is, Function.update_self] at before
      cases before
    · rw [Function.update_of_ne is] at before
      exact sound.saved k a before

/-- Every step keeps the state sound. -/
theorem Sound.step (sound : s.Sound b p) (step : Step b p s e s') : s'.Sound b p := by
  have positive : 0 < p.taskTop := lt_of_le_of_lt (Nat.zero_le _) sound.current
  cases step with
  | run inTask keeps =>
      refine ⟨keeps.trans sound.frame, sound.current, sound.on, sound.runs, sound.saved, fun k returned => ?_⟩
      rw [inTask] at returned
      cases returned
  | timer on timer => exact sound.takes on sound.frame rfl fun k returned => by cases returned
  | @taskOs i entered =>
      have on : s.point.On i := by rw [entered]; rfl
      obtain ⟨_, now⟩ := sound.on i on
      refine ⟨sound.frame, Nat.mod_lt _ positive, fun k on' => on'.elim, fun k running => ?_,
        fun k a waits slot member => ?_, fun k returned => by cases returned⟩
      · have before : Function.update s.stack i _ k = .running := running
        by_cases is : k = i
        · rw [is, Function.update_self] at before
          cases before
        · rw [Function.update_of_ne is] at before
          exact (sound.alone on is before).elim
      · have before : Function.update s.stack i _ k = .waiting a := waits
        by_cases is : k = i
        · rw [is, Function.update_self] at before
          cases before
          rw [is]
          exact taskOs_slot now member
        · rw [Function.update_of_ne is] at before
          rw [taskOs_ctx now is]
          exact sound.saved k a before slot member
  | taskGo inOs =>
      have off : ∀ k, s.stack k ≠ .running := fun k running => by
        have on := sound.runs k running
        rw [inOs] at on
        exact on
      have saved : ∀ k a, s.stack k = .waiting a → ∀ slot ∈ ctxSaved,
          (s.taskGo p).ctx (.task k) slot.2 = a.call slot.1 := fun k a waits slot member => by
        rw [taskGo_ctx]
        exact sound.saved k a waits slot member
      cases stack : s.stack s.currentTask with
      | running => exact (off _ stack).elim
      | fresh =>
          obtain ⟨stack', point'⟩ := @taskGo_fresh p s stack
          refine ⟨sound.frame, sound.current, fun k on => ?_, fun k running => ?_, fun k a waits => ?_,
            fun k returned => ?_⟩
          · rw [point'] at on
            exact ⟨on.symm, congrArg CtxRef.task on⟩
          · rw [point']
            by_contra other
            rw [stack', Function.update_of_ne (fun is => other is.symm)] at running
            exact off k running
          · rw [stack'] at waits
            by_cases is : k = s.currentTask
            · rw [is, Function.update_self] at waits
              cases waits
            · rw [Function.update_of_ne is] at waits
              exact saved k a waits
          · rw [point'] at returned
            cases returned
      | waiting a =>
          obtain ⟨stack', point'⟩ := @taskGo_waiting p s a stack
          refine ⟨sound.frame, sound.current, fun k on => ?_, fun k running => ?_, fun k a waits => ?_,
            fun k returned => ?_⟩
          · rw [point'] at on
            exact ⟨on.symm, congrArg CtxRef.task on⟩
          · rw [stack'] at running
            exact (off k running).elim
          · rw [stack'] at waits
            exact saved k a waits
          · rw [point', Point.back.injEq] at returned
            subst returned
            refine ⟨a, by rw [stack', stack], fun slot member => ?_⟩
            rw [taskGo_slot member]
            exact sound.saved _ a stack slot member
  | @back i a returned waits link kept =>
      have on : s.point.On i := by rw [returned]; rfl
      exact sound.takes on sound.frame rfl fun k returned => by cases returned

theorem inductive_ : (preemptSystem b p).Inductive (fun _ _ => True) (Tasks.Sound b p) where
  initial := by
    rintro s ⟨frame, first, positive, inOs, fresh⟩
    refine ⟨frame, first ▸ positive, fun i on => ?_, fun i running => ?_, fun i a waits => ?_,
      fun i returned => ?_⟩
    · rw [inOs] at on
      exact on.elim
    · rw [fresh i] at running
      cases running
    · rw [fresh i] at waits
      cases waits
    · rw [inOs] at returned
      cases returned
  preserved := fun sound _ => sound.step

/-- What waits on the stack of a task stays there until the hart runs on it. -/
theorem Sound.waits (off : ¬ s.point.On i) (waits : s.stack i = .waiting a) (step : Step b p s e s') :
    s'.stack i = .waiting a := by
  have other : ∀ {j stack}, s.point.On j → Function.update s.stack j stack i = .waiting a := by
    intro j stack on
    rw [Function.update_of_ne]
    · exact waits
    · rintro rfl
      exact off on
  cases step with
  | run inTask keeps => exact waits
  | timer on timer => exact other on
  | taskOs entered => exact other (by rw [entered]; rfl)
  | taskGo inOs =>
      by_cases is : s.currentTask = i
      · subst is
        rw [(@taskGo_waiting p s a waits).1, waits]
      · cases stack : s.stack s.currentTask with
        | fresh => rw [(@taskGo_fresh p s stack).1, Function.update_of_ne (Ne.symm is), waits]
        | running =>
            show (match s.stack s.currentTask with
              | .fresh => Function.update s.stack s.currentTask .running
              | _ => s.stack) i = _
            rw [stack]
            exact waits
        | waiting a' => rw [(@taskGo_waiting p s a' stack).1, waits]
  | back returned waits' link kept => exact other (by rw [returned]; rfl)

/-- The steps of the others. -/
theorem Sound.others {start : Tasks} (sound : start.Sound b p) (waits : start.stack i = .waiting a)
    (steps : (preemptSystem b p).StepsUnder (fun state _ => ¬ state.point.On i) start s) :
    s.Sound b p ∧ s.stack i = .waiting a := by
  induction steps with
  | refl => exact ⟨sound, waits⟩
  | step _ off transition ih => exact ⟨ih.1.step transition, Sound.waits off ih.2 transition⟩

/-- Every switch back goes on at `ra` with the callee-saved registers. -/
theorem Sound.switchedBack (sound : s.Sound b p) (switched : SwitchedBack b p i s s') :
    s'.hart.pc = s.hart.x ra ∧ ∀ r ∈ calleeSaved, s'.hart.x r = s.hart.x r := by
  obtain ⟨t, s1, s2, s3, interrupt, entered, left, steps, returns, here⟩ := switched
  have sound1 := sound.step interrupt
  have sound2 := sound1.step left
  have registers : ∀ r, r ≠ 0 → r ≠ t6 → s1.hart.x r = s.hart.x r := by
    cases interrupt with
    | timer on timer => exact fun r positive other => trap_timer sound.frame timer positive other
  have waits : s2.stack i = .waiting ⟨s1.hart.x, p.taskOs s1⟩ := by
    cases left with
    | taskOs entered' =>
        rw [entered] at entered'
        cases entered'
        exact taskOs_stack
  have waits3 := (sound2.others waits steps).2
  cases returns with
  | back returned waits' link kept =>
      cases here
      rw [waits3] at waits'
      cases waits'
      refine ⟨registers ra (by decide) (by decide), fun r member => ?_⟩
      have named : ∀ r ∈ calleeSaved, r ≠ 0 ∧ r ≠ t6 := by decide
      obtain ⟨positive, other⟩ := named r member
      exact (if_pos member).trans (registers r positive other)

/-- `os_main` takes a task that waits. -/
theorem Sound.comeBack (sound : s.Sound b p) (inOs : s.point = .os) (isNext : s.currentTask = i)
    (waits : s.stack i = .waiting a) :
    ∃ s3 s', Step b p s .taskGo s3 ∧ Step b p s3 .back s' ∧ s'.point = .task i ∧ s'.currentTask = i ∧
      s3.point = .back i ∧ s'.hart.x tp = s.hart.x tp := by
  subst isNext
  obtain ⟨stack, point⟩ := @taskGo_waiting p s a waits
  have sound3 := sound.step (.taskGo inOs)
  obtain ⟨a', waits', registers⟩ := sound3.returned _ point
  have inSlots : ∀ r ∈ ra :: calleeSaved, ∃ slot ∈ ctxSaved, slot.1 = r := by decide
  have kept : ∀ r ∈ ra :: calleeSaved, (s.taskGo p).hart.x r = a'.call r := by
    intro r member
    obtain ⟨slot, saved, rfl⟩ := inSlots r member
    exact registers slot saved
  refine ⟨s.taskGo p, (s.taskGo p).back p s.currentTask a', .taskGo inOs,
    .back point waits' (kept ra List.mem_cons_self) fun r member => kept r (.tail _ member), rfl, rfl,
    point, ?_⟩
  rw [back_tp, taskGo_tp]

/-- `os_main` takes another task. -/
theorem Sound.enter (sound : s.Sound b p) (inOs : s.point = .os) (other : s.currentTask ≠ i) {start : Tasks}
    (steps : (preemptSystem b p).StepsUnder (fun state _ => ¬ state.point.On i) start s) :
    ∃ s', (preemptSystem b p).StepsUnder (fun state _ => ¬ state.point.On i) start s' ∧ s'.Sound b p ∧
      s'.point = .task s.currentTask ∧ s'.currentTask = s.currentTask := by
  have off : ¬ s.point.On i := by rw [inOs]; exact id
  cases stack : s.stack s.currentTask with
  | running =>
      have on := sound.runs _ stack
      rw [inOs] at on
      exact on.elim
  | fresh =>
      have go : Step b p s .taskGo (s.taskGo p) := .taskGo inOs
      exact ⟨_, steps.step off go, sound.step go, (@taskGo_fresh p s stack).2, rfl⟩
  | waiting a =>
      obtain ⟨s3, s', go, returns, point, current, returned, _⟩ := sound.comeBack inOs rfl stack
      have off3 : ¬ s3.point.On i := by rw [returned]; exact other
      exact ⟨s', (steps.step off go).step off3 returns, (sound.step go).step returns, point, current⟩

end Tasks

/-- A timer interrupt whose handler does nothing to the memory. -/
def timerInterrupt (b : Board) : Trap b := ⟨0x80000007, id, fun _ => 0, fun _ _ _ => rfl⟩

theorem timerInterrupt_timer (b : Board) : (timerInterrupt b).Timer := by
  have cause : (0x80000007 : BitVec 32) &&& 0x80000000 ≠ 0 ∧ (0x80000007 : BitVec 32) &&& 0xfff = 7 := by
    decide
  exact cause

namespace Tasks

variable {b : Board} {p : Program} {s : Tasks} {i : Nat}

/-- The state after the interrupt. -/
def interrupted (b : Board) (s : Tasks) (i : Nat) : Tasks :=
  { s with
    hart := s.hart.trap (timerInterrupt b)
    stack := Function.update s.stack i .running
    point := .kernel i }

theorem interrupt (on : s.point.On i) : Step b p s (.timer (timerInterrupt b)) (s.interrupted b i) :=
  .timer on (timerInterrupt_timer b)

/-- Another task is taken, sets `tp` and is interrupted. -/
theorem Sound.visit (sound : s.Sound b p) (inOs : s.point = .os) (other : s.currentTask ≠ i)
    (v : BitVec 32) {start : Tasks}
    (steps : (preemptSystem b p).StepsUnder (fun state _ => ¬ state.point.On i) start s) :
    ∃ s', (preemptSystem b p).StepsUnder (fun state _ => ¬ state.point.On i) start s' ∧ s'.Sound b p ∧
      s'.point = .os ∧ s'.currentTask = (s.currentTask + 1) % p.taskTop ∧ s'.hart.x tp = v := by
  obtain ⟨s1, steps, sound1, inTask, current⟩ := sound.enter inOs other steps
  let s2 : Tasks := { s1 with hart := { s1.hart with x := Function.update s1.hart.x tp v } }
  have sets : Step b p s1 .run s2 := .run inTask rfl
  have inTask2 : s2.point = .task s.currentTask := inTask
  have on : s2.point.On s.currentTask := by rw [inTask2]; rfl
  have interrupt : Step b p s2 (.timer (timerInterrupt b)) (s2.interrupted b s.currentTask) := interrupt on
  have sound2 := sound1.step sets
  have sound3 := sound2.step interrupt
  have leaves := @Step.taskOs b p (s2.interrupted b s.currentTask) s.currentTask rfl
  have off1 : ¬ s1.point.On i := by rw [inTask]; exact other
  have off2 : ¬ s2.point.On i := off1
  refine ⟨_, ((steps.step off1 sets).step off2 interrupt).step other leaves, sound3.step leaves, rfl, ?_, ?_⟩
  · show (s1.currentTask + 1) % p.taskTop = _
    rw [current]
  · rw [taskOs_tp]
    have set_ : s2.hart.x tp = v := Function.update_self tp v s1.hart.x
    exact (trap_timer sound2.frame (timerInterrupt_timer b) (by decide) (by decide)).trans set_

theorem cyclic_ne {n d : Nat} (small : i < n) (positive : 0 < d) (less : d < n) : (i + d) % n ≠ i := by
  by_cases below : i + d < n
  · rw [Nat.mod_eq_of_lt below]
    omega
  · rw [Nat.mod_eq_sub_mod (by omega), Nat.mod_eq_of_lt (by omega)]
    omega

/-- All the tasks up to a distance are taken. -/
theorem Sound.visits (sound : s.Sound b p) (small : i < p.taskTop) (inOs : s.point = .os)
    (next : s.currentTask = (i + 1) % p.taskTop) (v : BitVec 32) (d : Nat) (less : d + 1 < p.taskTop) :
    ∃ s', (preemptSystem b p).StepsUnder (fun state _ => ¬ state.point.On i) s s' ∧ s'.Sound b p ∧
      s'.point = .os ∧ s'.currentTask = (i + (d + 2)) % p.taskTop ∧ s'.hart.x tp = v := by
  induction d with
  | zero =>
      have other : s.currentTask ≠ i := next ▸ cyclic_ne small (by omega) less
      obtain ⟨s', steps, sound', inOs', current, is⟩ := sound.visit inOs other v .refl
      exact ⟨s', steps, sound', inOs', by rw [current, next, Nat.mod_add_mod], is⟩
  | succ d ih =>
      obtain ⟨s1, steps, sound1, inOs1, current1, _⟩ := ih (by omega)
      have other : s1.currentTask ≠ i := current1 ▸ cyclic_ne small (by omega) less
      obtain ⟨s', steps, sound', inOs', current, is⟩ := sound1.visit inOs1 other v steps
      exact ⟨s', steps, sound', inOs', by rw [current, current1, Nat.mod_add_mod]; rfl, is⟩

/-- Some round over the other tasks brings the task back, with what another task has left in `tp`. -/
theorem Sound.round (sound : s.Sound b p) (on : s.point.On i) :
    ∃ s', SwitchedBack b p i s s' ∧ (2 ≤ p.taskTop → s'.hart.x tp ≠ s.hart.x tp) := by
  have isCurrent := (sound.on i on).1
  have small : i < p.taskTop := isCurrent ▸ sound.current
  have interrupt : Step b p s (.timer (timerInterrupt b)) (s.interrupted b i) := interrupt on
  have sound1 := sound.step interrupt
  have leaves := @Step.taskOs b p (s.interrupted b i) i rfl
  have sound2 := sound1.step leaves
  have next : (taskOs p (s.interrupted b i) i).currentTask = (i + 1) % p.taskTop := by
    show (s.currentTask + 1) % p.taskTop = _
    rw [isCurrent]
  by_cases only : p.taskTop = 1
  · have current : (taskOs p (s.interrupted b i) i).currentTask = i := by
      rw [next, only]
      omega
    obtain ⟨s3, s', go, returns, inTask, -⟩ := sound2.comeBack rfl current taskOs_stack
    exact ⟨s', ⟨_, _, _, s3, interrupt, rfl, leaves, .step .refl id go, returns, inTask⟩, fun many => by omega⟩
  · obtain ⟨s2, steps, _, inOs, current, other⟩ := sound2.visits small rfl next (s.hart.x tp + 1) (p.taskTop - 2)
      (by omega)
    obtain ⟨sound3, waits⟩ := sound2.others taskOs_stack steps
    have round : i + (p.taskTop - 2 + 2) = i + p.taskTop := by omega
    rw [round, Nat.add_mod_right, Nat.mod_eq_of_lt small] at current
    obtain ⟨s3, s', go, returns, inTask, _, _, kept⟩ := sound3.comeBack inOs current waits
    have off : ¬ s2.point.On i := by rw [inOs]; exact id
    refine ⟨s', ⟨_, _, _, s3, interrupt, rfl, leaves, steps.step off go, returns, inTask⟩, fun _ => ?_⟩
    rw [kept, other]
    simp

end Tasks

open Tasks in
/-- Wherever a timer interrupt is taken on the stack of a task, some round over the other tasks brings it back with
another state: `tp` is another task's, and the pc is what `ra` was. -/
theorem preempt_never {b : Board} {p : Program} {s : Tasks} {i : Nat}
    (run : (preemptSystem b p).Reachable s) (on : s.point.On i)
    (others : 2 ≤ p.taskTop ∨ s.hart.pc ≠ s.hart.x ra) :
    ¬ ∀ s', SwitchedBack b p i s s' → Transparent s s' := by
  have sound : s.Sound b p := run.invariant inductive_
  obtain ⟨s', switched, other⟩ := sound.round on
  intro transparent
  have same := transparent s' switched
  rcases others with many | away
  · exact other many (same.2 tp (by decide))
  · exact away (same.1.symm.trans (sound.switchedBack switched).1)

/-- Compiled code that leaves the registers as they are. -/
def Program.leaving (taskTop : Nat) : Program :=
  ⟨taskTop, fun s => s.hart.x, fun s => s.hart.x, fun s => s.hart.x, fun _ => rfl, fun _ => rfl, fun _ => rfl⟩

/-- `os_main` before its first task. -/
def Tasks.started : Tasks :=
  ⟨Hart.withT6 0, fun _ _ => 0, .os, 0, fun _ => .fresh, .os⟩

theorem Tasks.started_reachable (taskTop : Nat) (positive : 0 < taskTop) :
    (preemptSystem board (.leaving taskTop)).Reachable (Tasks.started.taskGo (.leaving taskTop)) := by
  have initial : (preemptSystem board (.leaving taskTop)).Initial Tasks.started :=
    ⟨rfl, rfl, positive, rfl, fun _ => rfl⟩
  exact .step (.initial initial) trivial (.taskGo rfl)

theorem preempt_never_first : ∃ s, (preemptSystem board (.leaving 2)).Reachable s ∧ s.point = .task 0 ∧
    ¬ ∀ s', SwitchedBack board (.leaving 2) 0 s s' → Transparent s s' :=
  ⟨_, Tasks.started_reachable 2 (by decide), rfl,
    preempt_never (Tasks.started_reachable 2 (by decide)) rfl (.inl (by decide))⟩

/-- The only task is interrupted in a function that it has called with `ra` pointing behind the call, and
goes on behind the call. -/
theorem preempt_loses_pc : ∃ s s', (preemptSystem board (.leaving 1)).Reachable s ∧
    SwitchedBack board (.leaving 1) 0 s s' ∧ s.hart.pc = 0x80003000 ∧ s'.hart.pc = 0x80002004 ∧
    ¬ Transparent s s' := by
  let before := Tasks.started.taskGo (.leaving 1)
  let s : Tasks := { before with
    hart := { before.hart with pc := 0x80003000, x := Function.update before.hart.x ra 0x80002004 } }
  have run : (preemptSystem board (.leaving 1)).Reachable s :=
    (Tasks.started_reachable 1 (by decide)).step trivial (.run (show before.point = .task 0 from rfl) rfl)
  have sound : s.Sound board (.leaving 1) := run.invariant Tasks.inductive_
  obtain ⟨s', switched, -⟩ := sound.round rfl
  have link : s'.hart.pc = 0x80002004 := (sound.switchedBack switched).1
  refine ⟨s, s', run, switched, rfl, link, fun transparent => ?_⟩
  rw [transparent.1] at link
  exact absurd link (by decide)

end Riscv2os.MiniRiscvOs
