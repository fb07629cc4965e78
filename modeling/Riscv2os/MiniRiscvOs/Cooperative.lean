import Riscv2os.MiniRiscvOs.Preempt

/-!
# Cooperative switching in mini-riscv-os

`task.c`, `sys_switch` of `sys.s` and the loop of `os_main` in `10-SystemCall`, for runs without a timer
interrupt. The contexts and the stacks are in the flat memory, and the two assembler macros are followed
word by word. Code of a task runs on its own stack: it changes registers and memory, but no context and no
stack of another task. Of the compiled code of `task_os` and `task_go` the calling convention is used: when
`sys_switch` returns behind their call with `sp` and the `s` registers of the call, and with the stack as it
was, they return to their caller with the ones of their entry.
-/

namespace Riscv2os.MiniRiscvOs

open Riscv2os.Std
open RiscV (Reg ra sp a0 a1)
open RegisterFrame FlatMemory

def MAX_TASK : Nat := 10

def STACK_SIZE : Nat := 1024

/-- `sizeof(struct context)`. -/
def CONTEXT_SIZE : Nat := 124

/-- Two areas of the memory have no byte in common. -/
def AreasApart (start len start' len' : Nat) : Prop := start + len ≤ start' ∨ start' + len' ≤ start

/-- Where `ctx_os`, `ctx_tasks` and `task_stack` are. They are distinct objects. -/
structure TaskLayout where
  ctxOs : Nat
  ctxTasks : Nat
  taskStack : Nat
  ctxOs_fits : ctxOs + CONTEXT_SIZE ≤ 2 ^ 32
  ctxTasks_fits : ctxTasks + CONTEXT_SIZE * MAX_TASK ≤ 2 ^ 32
  taskStack_fits : taskStack + STACK_SIZE * MAX_TASK ≤ 2 ^ 32
  os_tasks : AreasApart ctxOs CONTEXT_SIZE ctxTasks (CONTEXT_SIZE * MAX_TASK)
  os_stack : AreasApart ctxOs CONTEXT_SIZE taskStack (STACK_SIZE * MAX_TASK)
  tasks_stack : AreasApart ctxTasks (CONTEXT_SIZE * MAX_TASK) taskStack (STACK_SIZE * MAX_TASK)

namespace TaskLayout

/-- `&ctx_os` or `&ctx_tasks[i]`. -/
def ctx (l : TaskLayout) : CtxRef → Nat
  | .os => l.ctxOs
  | .task i => l.ctxTasks + CONTEXT_SIZE * i

/-- `&task_stack[i]`. -/
def stack (l : TaskLayout) (i : Nat) : Nat := l.taskStack + STACK_SIZE * i

end TaskLayout

/-- A context that exists. -/
def CtxRef.Valid : CtxRef → Prop
  | os => True
  | task i => i < MAX_TASK

/-- An area of the memory has the same bytes. -/
def SameArea (start len : Nat) (m m' : FlatMemory) : Prop :=
  ∀ k < len, m' (BitVec.ofNat 32 start + BitVec.ofNat 32 k) = m (BitVec.ofNat 32 start + BitVec.ofNat 32 k)

/-- What code on the stack of a task, or of `os_main`, leaves alone. -/
structure Spared (l : TaskLayout) (own : Option Nat) (m m' : FlatMemory) : Prop where
  contexts : ∀ ref : CtxRef, ref.Valid → SameArea (l.ctx ref) CONTEXT_SIZE m m'
  others : ∀ i, i < MAX_TASK → own ≠ some i → SameArea (l.stack i) STACK_SIZE m m'

/-- A task that waits in `task_os`: the registers at its entry, and the registers and the memory when
`sys_switch` was called. -/
structure Away where
  entry : Reg → BitVec 32
  call : Reg → BitVec 32
  memory : FlatMemory

inductive CoopStatus where
  /-- `task_create` only. -/
  | fresh
  | running
  | waiting (a : Away)

/-- Which code the hart runs. -/
inductive CoopPoint where
  /-- `os_start`, which creates the tasks. -/
  | boot
  /-- The loop of `os_main`. -/
  | os
  /-- `task_go`, to which `sys_switch` has returned. -/
  | osBack
  | task (i : Nat)
  /-- `task_os`, with the registers at its entry. -/
  | leaving (i : Nat) (entry : Reg → BitVec 32)
  /-- `task_os`, to which `sys_switch` has returned. -/
  | back (i : Nat)

/-- The state of the system, with the registers of `os_main` when it called `sys_switch`, the function of each
task, and the tasks in the order of their turns. -/
structure Coop where
  x : Reg → BitVec 32
  pc : BitVec 32
  memory : FlatMemory
  taskTop : Nat
  ctxNow : CtxRef
  currentTask : Nat
  point : CoopPoint
  status : Nat → CoopStatus
  osCall : Reg → BitVec 32
  function : Nat → BitVec 32
  history : List Nat

namespace Coop

variable (l : TaskLayout)

/-- `task_create`. -/
def taskCreate (s : Coop) (task : BitVec 32) : Coop :=
  let i := s.taskTop
  let ctx := BitVec.ofNat 32 (l.ctx (.task i))
  { s with
    taskTop := i + 1
    memory := (s.memory.store (ctx + BitVec.ofNat 32 0) task).store (ctx + BitVec.ofNat 32 4)
      (BitVec.ofNat 32 (l.stack i + (STACK_SIZE - 1)))
    function := Function.update s.function i task }

/-- `sys_switch`, whose `ret` goes to the `ra` that is loaded. -/
def sysSwitch (s : Coop) : Coop :=
  let memory := saveRegs a0 s.x ctxSaved s.memory
  let x := loadRegs a1 ctxLoaded memory s.x
  { s with x := x, pc := x ra, memory := memory }

/-- `task_go`. A fresh task begins at its function, another one in `task_os`. -/
def taskGo (s : Coop) : Coop :=
  let i := s.currentTask
  { s.sysSwitch with
    ctxNow := .task i
    osCall := s.x
    history := s.history ++ [i]
    status := match s.status i with
      | .fresh => Function.update s.status i .running
      | _ => s.status
    point := match s.status i with
      | .fresh => .task i
      | _ => .back i }

/-- `task_os`, which leaves the task for `os_main`. -/
def taskOs (s : Coop) (i : Nat) (entry : Reg → BitVec 32) : Coop :=
  { s.sysSwitch with
    ctxNow := .os
    status := Function.update s.status i (.waiting ⟨entry, s.x, s.memory⟩)
    point := .osBack }

end Coop

/-- `sp` and `s0` to `s11` are the same, and `ra`. -/
def SameFrame (x x' : Reg → BitVec 32) : Prop := ∀ r ∈ ra :: calleeSaved, x' r = x r

inductive CoopEvent where
  | create
  | enterLoop
  | osRun
  | taskGo
  | run
  | call
  | taskOs
  | back
  | osBack

/-- A step of the system. -/
inductive Coop.Step (l : TaskLayout) : Coop → CoopEvent → Coop → Prop where
  /-- `user_init` creates a task. -/
  | create {s : Coop} {task : BitVec 32} (booting : s.point = .boot) (room : s.taskTop < MAX_TASK) :
      Step l s .create (s.taskCreate l task)
  | enterLoop {s : Coop} (booting : s.point = .boot) (some_ : 0 < s.taskTop) :
      Step l s .enterLoop { s with point := .os, currentTask := 0 }
  /-- `os_main` prints. -/
  | osRun {s : Coop} {x : Reg → BitVec 32} {pc : BitVec 32} {m : FlatMemory} (inOs : s.point = .os)
      (spared : Spared l none s.memory m) : Step l s .osRun { s with x := x, pc := pc, memory := m }
  /-- `task_go(current_task)` calls `sys_switch(&ctx_os, &ctx_tasks[i])`. -/
  | taskGo {s : Coop} (inOs : s.point = .os) (old : s.x a0 = BitVec.ofNat 32 (l.ctx .os))
      (new : s.x a1 = BitVec.ofNat 32 (l.ctx (.task s.currentTask))) : Step l s .taskGo s.taskGo
  /-- The code of a task, or of `task_os` in front of its call. -/
  | run {s : Coop} {i : Nat} {x : Reg → BitVec 32} {pc : BitVec 32} {m : FlatMemory}
      (inTask : s.point = .task i ∨ ∃ entry, s.point = .leaving i entry)
      (spared : Spared l (some i) s.memory m) : Step l s .run { s with x := x, pc := pc, memory := m }
  /-- The task calls `task_os`. -/
  | call {s : Coop} {i : Nat} (inTask : s.point = .task i) :
      Step l s .call { s with point := .leaving i s.x }
  /-- `task_os` calls `sys_switch(ctx, &ctx_os)`, where `ctx` was `ctx_now`. -/
  | taskOs {s : Coop} {i : Nat} {entry : Reg → BitVec 32} (leaving : s.point = .leaving i entry)
      (old : s.x a0 = BitVec.ofNat 32 (l.ctx s.ctxNow)) (new : s.x a1 = BitVec.ofNat 32 (l.ctx .os)) :
      Step l s .taskOs (s.taskOs i entry)
  /-- `task_os` returns. -/
  | back {s : Coop} {i : Nat} {a : Away} {x : Reg → BitVec 32} {m : FlatMemory} (returned : s.point = .back i)
      (waits : s.status i = .waiting a) (link : s.pc = a.call ra) (kept : SameFrame a.call s.x)
      (stack : SameArea (l.stack i) STACK_SIZE a.memory s.memory) (restored : SameFrame a.entry x)
      (spared : Spared l (some i) s.memory m) :
      Step l s .back
        { s with
          x := x, pc := a.entry ra, memory := m
          status := Function.update s.status i .running
          point := .task i }
  /-- `task_go` returns, and `os_main` goes on to the next task. -/
  | osBack {s : Coop} (returned : s.point = .osBack) (link : s.pc = s.osCall ra)
      (kept : SameFrame s.osCall s.x) :
      Step l s .osBack { s with point := .os, currentTask := (s.currentTask + 1) % s.taskTop }

/-- The system from `os_start` on. -/
def coopSystem (l : TaskLayout) : TransitionSystem Coop CoopEvent where
  Initial s := s.point = .boot ∧ s.taskTop = 0 ∧ s.history = [] ∧ ∀ i, s.status i = .fresh
  Step := Coop.Step l

/-! ## Areas -/

section Areas

variable {l : TaskLayout} {start len start' len' i j : Nat} {m m' m'' : FlatMemory} {ref ref' : CtxRef}

theorem SameArea.refl : SameArea start len m m := fun _ _ => rfl

theorem SameArea.trans (first : SameArea start len m m') (second : SameArea start len m' m'') :
    SameArea start len m m'' := fun k less => (second k less).trans (first k less)

/-- A word of the area is the same. -/
theorem SameArea.load (same : SameArea start len m m') {offset : Nat} (inside : offset + 4 ≤ len) :
    m'.load (BitVec.ofNat 32 start + BitVec.ofNat 32 offset) =
      m.load (BitVec.ofNat 32 start + BitVec.ofNat 32 offset) := by
  refine load_eq_iff.mpr fun k small => ?_
  rw [add_offset, same (offset + k) (by omega), ← add_offset]
  exact load_eq_iff.mp rfl k small

/-- The contexts of two tasks, or of a task and the system, are apart. -/
theorem ctx_apart {ref ref' : CtxRef} (valid : ref.Valid) (valid' : ref'.Valid) (other : ref ≠ ref') :
    AreasApart (l.ctx ref) CONTEXT_SIZE (l.ctx ref') CONTEXT_SIZE := by
  have tasks := l.os_tasks
  simp only [AreasApart, CONTEXT_SIZE, MAX_TASK] at *
  cases ref with
  | os =>
      cases ref' with
      | os => exact absurd rfl other
      | task j =>
          have small : j < 10 := valid'
          simp only [TaskLayout.ctx, CONTEXT_SIZE]
          omega
  | task i =>
      have small : i < 10 := valid
      cases ref' with
      | os =>
          simp only [TaskLayout.ctx, CONTEXT_SIZE]
          omega
      | task j =>
          have different : i ≠ j := fun same => other (congrArg CtxRef.task same)
          simp only [TaskLayout.ctx, CONTEXT_SIZE]
          omega

/-- The stacks of two tasks are apart. -/
theorem stack_apart (other : i ≠ j) : AreasApart (l.stack i) STACK_SIZE (l.stack j) STACK_SIZE := by
  simp only [AreasApart, TaskLayout.stack, STACK_SIZE]
  omega

/-- A context and a stack are apart. -/
theorem ctx_stack_apart (ref : CtxRef) (valid : ref.Valid) (small : i < MAX_TASK) :
    AreasApart (l.ctx ref) CONTEXT_SIZE (l.stack i) STACK_SIZE := by
  have os := l.os_stack
  have tasks := l.tasks_stack
  simp only [AreasApart, CONTEXT_SIZE, STACK_SIZE, MAX_TASK, TaskLayout.stack] at *
  cases ref with
  | os =>
      simp only [TaskLayout.ctx]
      omega
  | task j =>
      have small' : j < 10 := valid
      simp only [TaskLayout.ctx, CONTEXT_SIZE]
      omega

theorem ctx_fits (l : TaskLayout) (ref : CtxRef) (valid : ref.Valid) : l.ctx ref + CONTEXT_SIZE ≤ 2 ^ 32 := by
  have os := l.ctxOs_fits
  have tasks := l.ctxTasks_fits
  simp only [CONTEXT_SIZE, MAX_TASK] at *
  cases ref with
  | os => exact os
  | task j =>
      have small : j < 10 := valid
      simp only [TaskLayout.ctx, CONTEXT_SIZE]
      omega

theorem stack_fits (small : i < MAX_TASK) : l.stack i + STACK_SIZE ≤ 2 ^ 32 := by
  have fits := l.taskStack_fits
  simp only [STACK_SIZE, MAX_TASK, TaskLayout.stack] at *
  omega

/-- Two stores into one area leave another one alone. -/
theorem store_sameArea {v : BitVec 32} {offset : Nat} (inside : offset + 4 ≤ len) (fits : start + len ≤ 2 ^ 32)
    (fits' : start' + len' ≤ 2 ^ 32) (apart : AreasApart start len start' len') :
    SameArea start' len' m (m.store (BitVec.ofNat 32 start + BitVec.ofNat 32 offset) v) := by
  intro k less
  rw [← BitVec.ofNat_add, ← BitVec.ofNat_add, FlatMemory.store, if_neg]
  rw [BitVec.toNat_sub, BitVec.toNat_ofNat, BitVec.toNat_ofNat]
  rw [AreasApart] at apart
  omega

/-- `ctx_save` into one context leaves the other areas alone. -/
theorem saveRegs_sameArea {x : Reg → BitVec 32} (base : x a0 = BitVec.ofNat 32 start)
    (fits : start + CONTEXT_SIZE ≤ 2 ^ 32) (fits' : start' + len' ≤ 2 ^ 32)
    (apart : AreasApart start CONTEXT_SIZE start' len') :
    SameArea start' len' m (saveRegs a0 x ctxSaved m) := by
  have inside : ∀ s ∈ ctxSaved, s.2 + 4 ≤ CONTEXT_SIZE := by decide
  intro k less
  simp only [CONTEXT_SIZE, AreasApart] at *
  have offset : BitVec.ofNat 32 start' + BitVec.ofNat 32 k =
      x a0 + BitVec.ofNat 32 ((start' + k + 2 ^ 32 - start) % 2 ^ 32) := by
    rw [base, ← BitVec.ofNat_add, ← BitVec.ofNat_add]
    refine BitVec.eq_of_toNat_eq ?_
    rw [BitVec.toNat_ofNat, BitVec.toNat_ofNat]
    omega
  rw [offset]
  refine saveRegs_outside (by decide) (Nat.mod_lt _ (by decide)) fun s member => .inr ?_
  have bound := inside s member
  omega

end Areas

/-! ## Switches -/

namespace Coop

variable {l : TaskLayout} {s s' : Coop} {ref : CtxRef} {slot : Slot} {i : Nat} {start len : Nat}

/-- `sys_switch` saves the registers into the old context. -/
theorem sysSwitch_saved (member : slot ∈ ctxSaved) :
    s.sysSwitch.memory.load (s.x a0 + BitVec.ofNat 32 slot.2) = s.x slot.1 := by
  refine load_eq_iff.mpr fun k small => ?_
  rw [add_offset]
  exact saveRegs_slot (by decide) member small

/-- `sys_switch` loads the registers from the new context. -/
theorem sysSwitch_loaded (member : slot ∈ ctxLoaded) :
    s.sysSwitch.x slot.1 = s.sysSwitch.memory.load (s.x a1 + BitVec.ofNat 32 slot.2) := by
  have positive : ∀ s ∈ ctxLoaded, s.1 ≠ 0 := by decide
  exact loadRegs_slot (by decide) (by decide) (by decide) member (positive slot member)

/-- `sys_switch` leaves the areas alone that are apart from the old context. -/
theorem sysSwitch_sameArea (old : s.x a0 = BitVec.ofNat 32 (l.ctx ref)) (valid : ref.Valid)
    (fits : start + len ≤ 2 ^ 32) (apart : AreasApart (l.ctx ref) CONTEXT_SIZE start len) :
    SameArea start len s.memory s.sysSwitch.memory :=
  saveRegs_sameArea old (ctx_fits l ref valid) fits apart

end Coop

/-! ## What holds in every run -/

/-- The task runs, or calls `sys_switch`. -/
def CoopPoint.In (i : Nat) : CoopPoint → Prop
  | task j => j = i
  | leaving j _ => j = i
  | _ => False

/-- The hart is on the stack of the task. -/
def CoopPoint.On (i : Nat) : CoopPoint → Prop
  | task j => j = i
  | leaving j _ => j = i
  | back j => j = i
  | _ => False

/-- The context of a task that has not begun. -/
structure Created (l : TaskLayout) (m : FlatMemory) (i : Nat) (task : BitVec 32) : Prop where
  function : m.load (BitVec.ofNat 32 (l.ctx (.task i)) + BitVec.ofNat 32 0) = task
  top : m.load (BitVec.ofNat 32 (l.ctx (.task i)) + BitVec.ofNat 32 4) =
    BitVec.ofNat 32 (l.stack i + (STACK_SIZE - 1))

/-- The context and the stack of a task that waits. -/
structure Waits (l : TaskLayout) (m : FlatMemory) (i : Nat) (a : Away) : Prop where
  saved : ∀ slot ∈ ctxSaved,
    m.load (BitVec.ofNat 32 (l.ctx (.task i)) + BitVec.ofNat 32 slot.2) = a.call slot.1
  stack : SameArea (l.stack i) STACK_SIZE a.memory m

/-- The context of `os_main` while a task runs. -/
def OsSaved (l : TaskLayout) (m : FlatMemory) (x : Reg → BitVec 32) : Prop :=
  ∀ slot ∈ ctxSaved, m.load (BitVec.ofNat 32 (l.ctx .os) + BitVec.ofNat 32 slot.2) = x slot.1

section Keep

variable {l : TaskLayout} {m m' : FlatMemory} {i : Nat} {a : Away} {task : BitVec 32} {x : Reg → BitVec 32}

theorem ctxSaved_inside : ∀ slot ∈ ctxSaved, slot.2 + 4 ≤ CONTEXT_SIZE := by decide

theorem Created.keep (created : Created l m i task)
    (same : SameArea (l.ctx (.task i)) CONTEXT_SIZE m m') : Created l m' i task :=
  ⟨(same.load (by decide)).trans created.function, (same.load (by decide)).trans created.top⟩

theorem Waits.keep (waits : Waits l m i a) (same : SameArea (l.ctx (.task i)) CONTEXT_SIZE m m')
    (stack : SameArea (l.stack i) STACK_SIZE m m') : Waits l m' i a :=
  ⟨fun slot member => (same.load (ctxSaved_inside slot member)).trans (waits.saved slot member),
    waits.stack.trans stack⟩

theorem OsSaved.keep (saved : OsSaved l m x) (same : SameArea (l.ctx .os) CONTEXT_SIZE m m') : OsSaved l m' x :=
  fun slot member => (same.load (ctxSaved_inside slot member)).trans (saved slot member)

end Keep

/-- What holds in every state of a run. -/
structure Coop.Sound (l : TaskLayout) (s : Coop) : Prop where
  top : s.taskTop ≤ MAX_TASK
  booting : s.point = .boot → s.history = [] ∧ ∀ i, s.status i = .fresh
  current : s.point ≠ .boot → s.currentTask < s.taskTop
  on : ∀ i, s.point.On i → i = s.currentTask ∧ s.ctxNow = .task i
  runs : ∀ i, s.status i = .running ↔ s.point.In i
  known : ∀ i, s.status i ≠ .fresh → i < s.taskTop
  fresh : ∀ i < s.taskTop, s.status i = .fresh → Created l s.memory i (s.function i)
  waits : ∀ i a, s.status i = .waiting a → Waits l s.memory i a
  returned : ∀ i, s.point = .back i → ∃ a, s.status i = .waiting a ∧ s.pc = a.call ra ∧
    ∀ slot ∈ ctxSaved, s.x slot.1 = a.call slot.1
  osSaved : ∀ i, s.point.On i → OsSaved l s.memory s.osCall
  osBack : s.point = .osBack → s.pc = s.osCall ra ∧ ∀ slot ∈ ctxSaved, s.x slot.1 = s.osCall slot.1
  order : s.history = (List.range s.history.length).map (· % s.taskTop)
  turn : s.point = .os → s.currentTask = s.history.length % s.taskTop
  taken : s.point ≠ .boot → s.point ≠ .os → ∃ k, s.history.length = k + 1 ∧ s.currentTask = k % s.taskTop

namespace Coop

variable {l : TaskLayout} {s s' : Coop} {i : Nat} {x : Reg → BitVec 32} {pc : BitVec 32} {m : FlatMemory}

theorem Sound.small (sound : s.Sound l) (known : s.status i ≠ .fresh) : i < MAX_TASK :=
  lt_of_lt_of_le (sound.known i known) sound.top

theorem Sound.current_small (sound : s.Sound l) (running : s.point ≠ .boot) : s.currentTask < MAX_TASK :=
  lt_of_lt_of_le (sound.current running) sound.top

/-- Code that runs on its own stack changes registers and memory. -/
theorem Sound.ran (sound : s.Sound l) {own : Option Nat} (spared : Spared l own s.memory m)
    (inside : ∀ i, own = some i → s.point.In i) (off : ∀ i, s.point ≠ .back i) (away : s.point ≠ .osBack) :
    Sound l { s with x := x, pc := pc, memory := m } := by
  refine ⟨sound.top, sound.booting, sound.current, sound.on, sound.runs, sound.known, fun i known fresh => ?_,
    fun i a waits => ?_, fun i returned => absurd returned (off i), fun i on => ?_,
    fun back => absurd back away, sound.order, sound.turn, sound.taken⟩
  · exact (sound.fresh i known fresh).keep (spared.contexts _ (lt_of_lt_of_le known sound.top))
  · have waiting : s.status i = .waiting a := waits
    have small := sound.small (i := i) (by rw [waiting]; exact CoopStatus.noConfusion)
    refine (sound.waits i a waits).keep (spared.contexts _ small) (spared.others i small fun own => ?_)
    rw [(sound.runs i).mpr (inside i own)] at waiting
    cases waiting
  · exact (sound.osSaved i on).keep (spared.contexts .os trivial)

theorem Sound.create (sound : s.Sound l) (booting : s.point = .boot) (room : s.taskTop < MAX_TASK)
    (task : BitVec 32) : (s.taskCreate l task).Sound l := by
  obtain ⟨none, fresh⟩ := sound.booting booting
  have nowhere (i : Nat) : ¬ s.point.On i := by
    rw [booting]
    exact id
  have off {point : CoopPoint} (other : point ≠ .boot) : s.point ≠ point :=
    fun same => other (same.symm.trans booting)
  have fits := ctx_fits l (.task s.taskTop) room
  refine ⟨room, sound.booting, fun other => absurd booting other, fun i on => absurd on (nowhere i), sound.runs,
    fun i known => absurd (fresh i) known, fun i below _ => ?_, fun i a waits => ?_,
    fun i returned => absurd returned (off (by simp)), fun i on => absurd on (nowhere i),
    fun back => absurd back (off (by simp)), ?_, fun inOs => absurd inOs (off (by simp)),
    fun other => absurd booting other⟩
  · by_cases last : i = s.taskTop
    · subst last
      refine ⟨?_, load_store_self⟩
      rw [show (s.taskCreate l task).function s.taskTop = task from Function.update_self ..]
      refine load_eq_iff.mpr fun k less => ?_
      simp only [CONTEXT_SIZE] at fits
      rw [add_offset]
      change ((s.memory.store _ task).store _ _) _ = _
      rw [store_offset (by omega) (by omega), if_neg (by omega), store_offset (by omega) (by omega),
        if_pos (by omega), Nat.zero_add, Nat.sub_zero]
    · have before : i < s.taskTop := by
        have below' : i < s.taskTop + 1 := below
        omega
      have apart : AreasApart (l.ctx (.task s.taskTop)) CONTEXT_SIZE (l.ctx (.task i)) CONTEXT_SIZE :=
        ctx_apart room (before.trans room) (by simpa using fun same => last same.symm)
      have fits' := ctx_fits l (.task i) (before.trans room)
      rw [show (s.taskCreate l task).function i = s.function i from Function.update_of_ne last ..]
      exact ((sound.fresh i before (fresh i)).keep (store_sameArea (by decide) fits fits' apart)).keep
        (store_sameArea (by decide) fits fits' apart)
  · have waiting : s.status i = .waiting a := waits
    rw [fresh i] at waiting
    cases waiting
  · change s.history = (List.range s.history.length).map (· % (s.taskTop + 1))
    rw [none]
    rfl

/-- What `task_go` leaves alone: every context but the one of `os_main`, and the stacks. -/
theorem taskGo_same (old : s.x a0 = BitVec.ofNat 32 (l.ctx .os)) (small : i < MAX_TASK) :
    SameArea (l.ctx (.task i)) CONTEXT_SIZE s.memory s.taskGo.memory ∧
      SameArea (l.stack i) STACK_SIZE s.memory s.taskGo.memory :=
  ⟨sysSwitch_sameArea old trivial (ctx_fits l (.task i) small)
      (ctx_apart trivial small (by simp)),
    sysSwitch_sameArea old trivial (stack_fits small) (ctx_stack_apart .os trivial small)⟩

/-- What `task_go` loads is what the context of the task held. -/
theorem taskGo_loaded (old : s.x a0 = BitVec.ofNat 32 (l.ctx .os))
    (new : s.x a1 = BitVec.ofNat 32 (l.ctx (.task s.currentTask))) (small : s.currentTask < MAX_TASK)
    (slot : Slot) (member : slot ∈ ctxLoaded) : s.taskGo.x slot.1 =
      s.memory.load (BitVec.ofNat 32 (l.ctx (.task s.currentTask)) + BitVec.ofNat 32 slot.2) := by
  have loaded : s.taskGo.x slot.1 = _ := sysSwitch_loaded member
  rw [loaded, new]
  exact (taskGo_same old small).1.load (ctxSaved_inside slot member)

theorem taskGo_fresh (fresh : s.status s.currentTask = .fresh) :
    s.taskGo.status = Function.update s.status s.currentTask .running ∧
      s.taskGo.point = .task s.currentTask := by
  simp only [taskGo, fresh, and_self]

theorem taskGo_waiting {a : Away} (waits : s.status s.currentTask = .waiting a) :
    s.taskGo.status = s.status ∧ s.taskGo.point = .back s.currentTask := by
  simp only [taskGo, waits, and_self]

/-- The turn of the next task. -/
theorem Sound.turns (sound : s.Sound l) (inOs : s.point = .os) :
    s.taskGo.history = (List.range s.taskGo.history.length).map (· % s.taskGo.taskTop) ∧
      ∃ k, s.taskGo.history.length = k + 1 ∧ s.taskGo.currentTask = k % s.taskGo.taskTop := by
  have longer : s.taskGo.history = s.history ++ [s.currentTask] := rfl
  have turn := sound.turn inOs
  refine ⟨?_, s.history.length, by rw [longer, List.length_append, List.length_singleton], turn⟩
  rw [longer, List.length_append, List.length_singleton, List.range_succ, List.map_append]
  exact congrArg₂ (· ++ ·) sound.order (congrArg ([·]) turn)

theorem Sound.taskGo (sound : s.Sound l) (inOs : s.point = .os) (old : s.x a0 = BitVec.ofNat 32 (l.ctx .os))
    (new : s.x a1 = BitVec.ofNat 32 (l.ctx (.task s.currentTask))) : s.taskGo.Sound l := by
  have booted : s.point ≠ .boot := by simp [inOs]
  have small := sound.current_small booted
  have below := sound.current booted
  have idle (i : Nat) : s.status i ≠ .running := fun running => by
    have in_ := (sound.runs i).mp running
    rw [inOs] at in_
    exact in_
  have createds (i : Nat) (known : i < s.taskTop) (fresh : s.status i = .fresh) :
      Created l s.taskGo.memory i (s.function i) :=
    (sound.fresh i known fresh).keep (taskGo_same old (lt_of_lt_of_le known sound.top)).1
  have waiting (i : Nat) (a : Away) (waits : s.status i = .waiting a) : Waits l s.taskGo.memory i a := by
    have small := sound.small (i := i) (by rw [waits]; exact CoopStatus.noConfusion)
    exact (sound.waits i a waits).keep (taskGo_same old small).1 (taskGo_same old small).2
  have osSaved : OsSaved l s.taskGo.memory s.x := fun slot member => by
    rw [← old]
    exact sysSwitch_saved member
  obtain ⟨order, turns⟩ := sound.turns inOs
  cases status : s.status s.currentTask with
  | running => exact absurd status (idle _)
  | fresh =>
      obtain ⟨status', point'⟩ := taskGo_fresh status
      refine ⟨sound.top, fun boot => ?_, fun _ => below, fun i on => ?_, fun i => ?_, fun i known => ?_,
        fun i known fresh => ?_, fun i a waits => ?_, fun i returned => ?_, fun _ _ => osSaved, fun back => ?_,
        order, fun os => ?_, fun _ _ => turns⟩
      · rw [point'] at boot
        cases boot
      · rw [point'] at on
        exact ⟨on.symm, congrArg CtxRef.task on⟩
      · rw [status', point']
        by_cases same : i = s.currentTask
        · rw [same, Function.update_self]
          exact iff_of_true rfl rfl
        · rw [Function.update_of_ne same]
          exact iff_of_false (idle i) fun in_ => same in_.symm
      · rw [status'] at known
        by_cases same : i = s.currentTask
        · rw [same]
          exact below
        · rw [Function.update_of_ne same] at known
          exact sound.known i known
      · rw [status'] at fresh
        by_cases same : i = s.currentTask
        · rw [same, Function.update_self] at fresh
          cases fresh
        · rw [Function.update_of_ne same] at fresh
          exact createds i known fresh
      · rw [status'] at waits
        by_cases same : i = s.currentTask
        · rw [same, Function.update_self] at waits
          cases waits
        · rw [Function.update_of_ne same] at waits
          exact waiting i a waits
      · rw [point'] at returned
        cases returned
      · rw [point'] at back
        cases back
      · rw [point'] at os
        cases os
  | waiting a =>
      obtain ⟨status', point'⟩ := taskGo_waiting status
      refine ⟨sound.top, fun boot => ?_, fun _ => below, fun i on => ?_, fun i => ?_, fun i known => ?_,
        fun i known fresh => ?_, fun i a waits => ?_, fun i returned => ?_, fun _ _ => osSaved, fun back => ?_,
        order, fun os => ?_, fun _ _ => turns⟩
      · rw [point'] at boot
        cases boot
      · rw [point'] at on
        exact ⟨on.symm, congrArg CtxRef.task on⟩
      · rw [status', point']
        exact iff_of_false (idle i) id
      · rw [status'] at known
        exact sound.known i known
      · rw [status'] at fresh
        exact createds i known fresh
      · rw [status'] at waits
        exact waiting i a waits
      · rw [point', CoopPoint.back.injEq] at returned
        subst returned
        have registers : ∀ slot ∈ ctxSaved, s.taskGo.x slot.1 = a.call slot.1 := fun slot member =>
          (taskGo_loaded old new small slot member).trans ((sound.waits _ a status).saved slot member)
        exact ⟨a, by rw [status', status], registers (ra, 0) (by decide), registers⟩
      · rw [point'] at back
        cases back
      · rw [point'] at os
        cases os

theorem Sound.call (sound : s.Sound l) (inTask : s.point = .task i) :
    Sound l { s with point := .leaving i s.x } := by
  have on : s.point.On i := by
    rw [inTask]
    rfl
  have booted : s.point ≠ .boot := by simp [inTask]
  refine ⟨sound.top, fun boot => absurd boot (by simp), fun _ => sound.current booted, fun j on' => ?_,
    fun j => ?_, sound.known, sound.fresh, sound.waits, fun j returned => absurd returned (by simp), fun j on' => ?_,
    fun back => absurd back (by simp), sound.order, fun os => absurd os (by simp),
    fun _ _ => sound.taken booted (by simp [inTask])⟩
  · obtain rfl : i = j := on'
    exact sound.on i on
  · rw [sound.runs j, inTask]
    exact Iff.rfl
  · exact sound.osSaved i on

theorem Sound.taskOs (sound : s.Sound l) {entry : Reg → BitVec 32} (leaving : s.point = .leaving i entry)
    (old : s.x a0 = BitVec.ofNat 32 (l.ctx s.ctxNow)) (new : s.x a1 = BitVec.ofNat 32 (l.ctx .os)) :
    (s.taskOs i entry).Sound l := by
  have on : s.point.On i := by
    rw [leaving]
    rfl
  have booted : s.point ≠ .boot := by simp [leaving]
  obtain ⟨isCurrent, now⟩ := sound.on i on
  rw [now] at old
  have small : i < MAX_TASK := isCurrent ▸ sound.current_small booted
  have same {j : Nat} (small' : j < MAX_TASK) (other : j ≠ i) :
      SameArea (l.ctx (.task j)) CONTEXT_SIZE s.memory (s.taskOs i entry).memory :=
    sysSwitch_sameArea old small (ctx_fits l (.task j) small')
      (ctx_apart small small' (by simpa using other.symm))
  have stack {j : Nat} (small' : j < MAX_TASK) :
      SameArea (l.stack j) STACK_SIZE s.memory (s.taskOs i entry).memory :=
    sysSwitch_sameArea old small (stack_fits small') (ctx_stack_apart (.task i) small small')
  have os : SameArea (l.ctx .os) CONTEXT_SIZE s.memory (s.taskOs i entry).memory :=
    sysSwitch_sameArea old small (ctx_fits l .os trivial) (ctx_apart small trivial (by simp))
  have loaded : ∀ slot ∈ ctxSaved, (s.taskOs i entry).x slot.1 = s.osCall slot.1 := fun slot member => by
    have word : (s.taskOs i entry).x slot.1 = _ := sysSwitch_loaded member
    rw [word, new]
    exact (os.load (ctxSaved_inside slot member)).trans (sound.osSaved i on slot member)
  have status : (s.taskOs i entry).status = Function.update s.status i (.waiting ⟨entry, s.x, s.memory⟩) := rfl
  refine ⟨sound.top, fun boot => absurd boot CoopPoint.noConfusion, fun _ => sound.current booted,
    fun j on' => on'.elim, fun j => ?_, fun j known => ?_, fun j known fresh => ?_, fun j a waits => ?_,
    fun j returned => absurd returned CoopPoint.noConfusion, fun j on' => on'.elim,
    fun _ => ⟨loaded (ra, 0) (by decide), loaded⟩, sound.order, fun os => absurd os CoopPoint.noConfusion,
    fun _ _ => sound.taken booted (by simp [leaving])⟩
  · rw [status]
    refine iff_of_false ?_ id
    by_cases is : j = i
    · rw [is, Function.update_self]
      exact CoopStatus.noConfusion
    · rw [Function.update_of_ne is, sound.runs j, leaving]
      exact fun in_ => is in_.symm
  · rw [status] at known
    by_cases is : j = i
    · rw [is, isCurrent]
      exact sound.current booted
    · rw [Function.update_of_ne is] at known
      exact sound.known j known
  · rw [status] at fresh
    by_cases is : j = i
    · rw [is, Function.update_self] at fresh
      cases fresh
    · rw [Function.update_of_ne is] at fresh
      exact (sound.fresh j known fresh).keep (same (lt_of_lt_of_le known sound.top) is)
  · rw [status] at waits
    by_cases is : j = i
    · rw [is, Function.update_self] at waits
      cases waits
      subst is
      refine ⟨fun slot member => ?_, stack small⟩
      rw [← old]
      exact sysSwitch_saved member
    · rw [Function.update_of_ne is] at waits
      have small' := sound.small (i := j) (by rw [waits]; exact CoopStatus.noConfusion)
      exact (sound.waits j a waits).keep (same small' is) (stack small')

theorem Sound.back (sound : s.Sound l) {a : Away} (returned : s.point = .back i)
    (waits : s.status i = .waiting a) (spared : Spared l (some i) s.memory m) :
    Sound l { s with
      x := x, pc := a.entry ra, memory := m
      status := Function.update s.status i .running
      point := .task i } := by
  have on : s.point.On i := by
    rw [returned]
    rfl
  have booted : s.point ≠ .boot := by simp [returned]
  have known : i < s.taskTop := sound.known i (by rw [waits]; exact CoopStatus.noConfusion)
  have idle {j : Nat} : s.status j ≠ .running := fun running => by
    have in_ := (sound.runs j).mp running
    rw [returned] at in_
    exact in_
  refine ⟨sound.top, fun boot => absurd boot (by simp), fun _ => sound.current booted, fun j on' => ?_,
    fun j => ?_, fun j known' => ?_, fun j known' fresh => ?_, fun j b waits' => ?_,
    fun j returned => absurd returned (by simp), fun j on' => ?_,
      fun back => absurd back (by simp), sound.order, fun os => absurd os (by simp),
    fun _ _ => sound.taken booted (by simp [returned])⟩
  · obtain rfl : i = j := on'
    exact sound.on i on
  · by_cases is : j = i
    · rw [is]
      exact iff_of_true (Function.update_self ..) rfl
    · refine iff_of_false ?_ fun in_ => is in_.symm
      change Function.update s.status i .running j ≠ _
      rw [Function.update_of_ne is]
      exact idle
  · by_cases is : j = i
    · rw [is]
      exact known
    · have before : Function.update s.status i .running j ≠ .fresh := known'
      rw [Function.update_of_ne is] at before
      exact sound.known j before
  · have before : Function.update s.status i .running j = .fresh := fresh
    by_cases is : j = i
    · rw [is, Function.update_self] at before
      cases before
    · rw [Function.update_of_ne is] at before
      exact (sound.fresh j known' before).keep (spared.contexts _ (lt_of_lt_of_le known' sound.top))
  · have before : Function.update s.status i .running j = .waiting b := waits'
    by_cases is : j = i
    · rw [is, Function.update_self] at before
      cases before
    · rw [Function.update_of_ne is] at before
      have small := sound.small (i := j) (by rw [before]; exact CoopStatus.noConfusion)
      exact (sound.waits j b before).keep (spared.contexts _ small)
        (spared.others j small (by simpa using fun same => is same.symm))
  · exact (sound.osSaved i on).keep (spared.contexts .os trivial)

theorem Sound.osReturn (sound : s.Sound l) (returned : s.point = .osBack) :
    Sound l { s with point := .os, currentTask := (s.currentTask + 1) % s.taskTop } := by
  have booted : s.point ≠ .boot := by simp [returned]
  have positive : 0 < s.taskTop := (Nat.zero_le _).trans_lt (sound.current booted)
  obtain ⟨k, length, turn⟩ := sound.taken booted (by simp [returned])
  refine ⟨sound.top, fun boot => absurd boot (by simp), fun _ => Nat.mod_lt _ positive,
    fun j on' => on'.elim, fun j => ?_, sound.known, sound.fresh, sound.waits,
      fun j returned => absurd returned (by simp), fun j on' => on'.elim,
    fun back => absurd back (by simp), sound.order, fun _ => ?_, fun _ other => absurd rfl other⟩
  · rw [sound.runs j, returned]
    exact Iff.rfl
  · change (s.currentTask + 1) % s.taskTop = s.history.length % s.taskTop
    rw [turn, length, Nat.mod_add_mod]

/-- Every step keeps the state sound. -/
theorem Sound.step (sound : s.Sound l) {e : CoopEvent} (step : Step l s e s') : s'.Sound l := by
  cases step with
  | create booting room => exact sound.create booting room _
  | enterLoop booting some_ =>
      obtain ⟨none, fresh⟩ := sound.booting booting
      have idle (i : Nat) : ¬ s.point.In i := by
        rw [booting]
        exact id
      refine ⟨sound.top, fun boot => absurd boot (by simp), fun _ => some_, fun i on => on.elim, fun i => ?_,
        sound.known, sound.fresh, sound.waits, fun i returned => absurd returned (by simp), fun i on => on.elim,
        fun back => absurd back (by simp), sound.order, fun _ => ?_, fun _ other => absurd rfl other⟩
      · exact (sound.runs i).trans (iff_of_false (idle i) id)
      · rw [none, List.length_nil, Nat.zero_mod]
  | osRun inOs spared =>
      refine sound.ran spared (fun i own => absurd own (by simp)) (fun i => ?_) ?_
      · simp [inOs]
      · simp [inOs]
  | taskGo inOs old new => exact sound.taskGo inOs old new
  | @run i _ _ _ inTask spared =>
      refine sound.ran spared (fun j own => ?_) (fun j => ?_) ?_
      · obtain rfl : i = j := Option.some.inj own
        obtain inTask | ⟨entry, leaving⟩ := inTask
        · rw [inTask]
          rfl
        · rw [leaving]
          rfl
      · obtain inTask | ⟨entry, leaving⟩ := inTask
        · simp [inTask]
        · simp [leaving]
      · obtain inTask | ⟨entry, leaving⟩ := inTask
        · simp [inTask]
        · simp [leaving]
  | call inTask => exact sound.call inTask
  | taskOs leaving old new => exact sound.taskOs leaving old new
  | back returned waits link kept stack restored spared => exact sound.back returned waits spared
  | osBack returned link kept => exact sound.osReturn returned

theorem sound_inductive : (coopSystem l).Inductive (fun _ _ => True) (Coop.Sound l) where
  initial := by
    rintro s ⟨booting, zero, none, fresh⟩
    refine ⟨zero ▸ Nat.zero_le _, fun _ => ⟨none, fresh⟩, fun other => absurd booting other, fun i on => ?_,
      fun i => ?_, fun i known => absurd (fresh i) known, fun i below _ => ?_, fun i a waits => ?_,
      fun i returned => ?_, fun i on => ?_, fun back => ?_, ?_, fun inOs => ?_, fun other => absurd booting other⟩
    · rw [booting] at on
      exact on.elim
    · rw [fresh i, booting]
      exact iff_of_false CoopStatus.noConfusion id
    · rw [zero] at below
      exact absurd below (Nat.not_lt_zero i)
    · rw [fresh i] at waits
      cases waits
    · rw [booting] at returned
      cases returned
    · rw [booting] at on
      exact on.elim
    · rw [booting] at back
      cases back
    · rw [none]
      rfl
    · rw [booting] at inOs
      cases inOs
  preserved := fun sound _ => sound.step

/-! ## The switches of a task -/

/-- Registers that agree on the saved ones agree on the frame. -/
theorem sameFrame_of_saved {x x' : Reg → BitVec 32} (saved : ∀ slot ∈ ctxSaved, x' slot.1 = x slot.1) :
    SameFrame x x' := by
  have inSlots : ∀ r ∈ ra :: calleeSaved, ∃ slot ∈ ctxSaved, slot.1 = r := by decide
  intro r member
  obtain ⟨slot, slotMember, rfl⟩ := inSlots r member
  exact saved slot slotMember

/-- A task on its way from `task_os` back to it. -/
def OnTheWay (i : Nat) (entry : Reg → BitVec 32) (s : Coop) : Prop :=
  s.point = .leaving i entry ∨ ∃ a, s.status i = .waiting a ∧ a.entry = entry

/-- A task is on its way until it is back behind its call. -/
theorem Sound.onTheWay (sound : s.Sound l) {entry : Reg → BitVec 32} {e : CoopEvent}
    (way : OnTheWay i entry s) (step : Step l s e s') :
    OnTheWay i entry s' ∨ s'.point = .task i ∧ s'.pc = entry ra ∧ SameFrame entry s'.x := by
  cases step with
  | create booting room => exact .inl (way.imp (fun leaving => by simp [booting] at leaving) id)
  | enterLoop booting some_ => exact .inl (way.imp (fun leaving => by simp [booting] at leaving) id)
  | osRun inOs spared => exact .inl (way.imp (fun leaving => by simp [inOs] at leaving) id)
  | taskGo inOs old new =>
      obtain leaving | ⟨a, waits, same⟩ := way
      · rw [inOs] at leaving
        cases leaving
      · refine .inl (.inr ⟨a, ?_, same⟩)
        cases status : s.status s.currentTask with
        | fresh =>
            rw [(taskGo_fresh status).1, Function.update_of_ne, waits]
            rintro rfl
            rw [waits] at status
            cases status
        | running =>
            have in_ := (sound.runs _).mp status
            rw [inOs] at in_
            exact in_.elim
        | waiting b => rw [(taskGo_waiting status).1, waits]
  | run inTask spared => exact .inl way
  | @call j inTask =>
      obtain leaving | waiting := way
      · rw [inTask] at leaving
        cases leaving
      · exact .inl (.inr waiting)
  | @taskOs j entry' leaving' old new =>
      refine .inl (.inr ?_)
      obtain leaving | ⟨a, waits, same⟩ := way
      · rw [leaving', CoopPoint.leaving.injEq] at leaving
        obtain ⟨rfl, rfl⟩ := leaving
        exact ⟨_, Function.update_self .., rfl⟩
      · refine ⟨a, ?_, same⟩
        change Function.update s.status j _ i = _
        rw [Function.update_of_ne, waits]
        rintro rfl
        have running := (sound.runs i).mpr (by rw [leaving']; rfl)
        rw [waits] at running
        cases running
  | @back j a x m returned waits' link kept stack restored spared =>
      obtain leaving | ⟨b, waits, same⟩ := way
      · rw [returned] at leaving
        cases leaving
      by_cases is : j = i
      · subst is
        rw [waits'] at waits
        cases waits
        subst same
        exact .inr ⟨rfl, rfl, restored⟩
      · refine .inl (.inr ⟨b, ?_, same⟩)
        change Function.update s.status j _ i = _
        rw [Function.update_of_ne (Ne.symm is), waits]
  | osBack returned link kept => exact .inl (way.imp (fun leaving => by simp [returned] at leaving) id)

/-- The way of a task through the turns of the others. -/
theorem Sound.returnsHome (sound : s.Sound l) {entry : Reg → BitVec 32} (way : OnTheWay i entry s)
    (steps : (coopSystem l).StepsUnder (fun state _ => state.point ≠ .task i) s s') :
    s'.Sound l ∧ (OnTheWay i entry s' ∨ s'.point = .task i ∧ s'.pc = entry ra ∧ SameFrame entry s'.x) := by
  induction steps with
  | refl => exact ⟨sound, .inl way⟩
  | step _ off transition ih =>
      refine ⟨ih.1.step transition, ?_⟩
      obtain way | home := ih.2
      · exact ih.1.onTheWay way transition
      · exact absurd home.1 off

/-- A task that runs is not on its way. -/
theorem Sound.home (sound : s.Sound l) {entry : Reg → BitVec 32} (inTask : s.point = .task i) :
    ¬ OnTheWay i entry s := by
  rintro (leaving | ⟨a, waits, -⟩)
  · rw [inTask] at leaving
    cases leaving
  · have running := (sound.runs i).mpr (by rw [inTask]; rfl)
    rw [waits] at running
    cases running

/-- `os_main` gets the hart back from `task_os`, and the task waits with its registers in its context. -/
structure Leaves (l : TaskLayout) (s s' : Coop) (i : Nat) (entry : Reg → BitVec 32) : Prop where
  point : s'.point = .osBack
  now : s'.ctxNow = .os
  link : s'.pc = s.osCall ra
  registers : SameFrame s.osCall s'.x
  waits : ∃ a, s'.status i = .waiting a ∧ a.entry = entry ∧ a.call = s.x ∧ Waits l s'.memory i a
  others : ∀ j, j ≠ i → s'.status j = s.status j

/-- A task gets the hart back in `task_os`, with the registers of its call of `sys_switch`. -/
structure Regains (s s' : Coop) (i : Nat) (a : Away) : Prop where
  point : s'.point = .back i
  now : s'.ctxNow = .task i
  link : s'.pc = a.call ra
  registers : SameFrame a.call s'.x
  waits : s'.status = s.status

/-- What the switches of the system do. -/
structure Cooperates (l : TaskLayout) (s : Coop) : Prop where
  /-- In the loop of `os_main` a task is fresh or waits, and the loop can hand the hart to the next one. -/
  idle : s.point = .os → ∀ i, s.status i = .fresh ∨ ∃ a, s.status i = .waiting a
  goes : s.point = .os → ∃ s1 s2, Step l s .osRun s1 ∧ Step l s1 .taskGo s2
  /-- Each `task_go` takes the turn of `current_task`. -/
  takes : ∀ s', Step l s .taskGo s' → s.currentTask < s.taskTop ∧ s'.history = s.history ++ [s.currentTask]
  /-- A task that has its first turn begins at its function, on its own stack. -/
  enters : ∀ s', Step l s .taskGo s' → s.status s.currentTask = .fresh → s'.point = .task s.currentTask ∧
    s'.ctxNow = .task s.currentTask ∧
    s'.pc = s.function s.currentTask ∧ s'.x sp = BitVec.ofNat 32 (l.stack s.currentTask + (STACK_SIZE - 1))
  /-- A task that waits gets the hart back, and `task_os` returns to its caller. -/
  regains : ∀ s' a, Step l s .taskGo s' → s.status s.currentTask = .waiting a → Regains s s' s.currentTask a
  backs : ∀ i s' a, s.point = .back i → s.status i = .waiting a → Step l s .back s' →
    s'.point = .task i ∧ s'.pc = a.entry ra ∧ SameFrame a.entry s'.x ∧ ∀ j, j ≠ i → s'.status j = s.status j
  /-- A task in `task_os` can call `sys_switch`, and then `os_main` has the hart. -/
  calls : ∀ i entry, s.point = .leaving i entry → ∃ s1 s2, Step l s .run s1 ∧ Step l s1 .taskOs s2
  leaves : ∀ s' i entry, Step l s .taskOs s' → s.point = .leaving i entry → Leaves l s s' i entry
  /-- The loop of `os_main` goes on to the next task. -/
  next : ∀ s', Step l s .osBack s' → s'.point = .os ∧ s'.currentTask = (s.currentTask + 1) % s.taskTop
  /-- A task that calls `task_os` goes on behind its call, with the registers of the call. -/
  resumes : ∀ i s1 s2, s.point = .task i → Step l s .call s1 →
    (coopSystem l).StepsUnder (fun state _ => state.point ≠ .task i) s1 s2 → s2.point = .task i →
    s2.pc = s.x ra ∧ SameFrame s.x s2.x
  /-- Where `sys_switch` returns into `task_os` or `task_go`, they can return. -/
  returns : ∀ i, s.point = .back i → ∃ s', Step l s .back s'
  osReturns : s.point = .osBack → ∃ s', Step l s .osBack s'
  /-- Only tasks that were created run. -/
  created : ∀ i, s.point.On i → i < s.taskTop
  contexts : ∀ i < s.taskTop, ∀ j < s.taskTop, i ≠ j →
    AreasApart (l.ctx (.task i)) CONTEXT_SIZE (l.ctx (.task j)) CONTEXT_SIZE
  stacks_apart : ∀ i < s.taskTop, ∀ j < s.taskTop, i ≠ j →
    AreasApart (l.stack i) STACK_SIZE (l.stack j) STACK_SIZE
  contexts_stacks : ∀ i < s.taskTop, ∀ j < s.taskTop,
    AreasApart (l.ctx (.task i)) CONTEXT_SIZE (l.stack j) STACK_SIZE
  /-- The turns go round. -/
  order : s.history = (List.range s.history.length).map (· % s.taskTop)
  rounds : ∀ k, (k + 1) * s.taskTop ≤ s.history.length →
    (s.history.drop (k * s.taskTop)).take s.taskTop = List.range s.taskTop

/-- Every round of the turns takes each task once. -/
theorem rounds_of_order {history : List Nat} {n : Nat}
    (order : history = (List.range history.length).map (· % n)) {k : Nat} (long : (k + 1) * n ≤ history.length) :
    (history.drop (k * n)).take n = List.range n := by
  have whole : (k + 1) * n = k * n + n := by ring
  have same : ((history.drop (k * n)).take n).length = (List.range n).length := by
    rw [List.length_take, List.length_drop, List.length_range]
    omega
  refine List.ext_getElem same fun j _ less => ?_
  rw [List.length_range] at less
  have turn : history[k * n + j]? = some ((k * n + j) % n) := by
    rw [order, List.getElem?_map, List.getElem?_range (by omega), Option.map_some]
  rw [List.getElem_take, List.getElem_drop, List.getElem_range]
  rw [List.getElem?_eq_getElem (by omega), Option.some.injEq] at turn
  rw [turn, Nat.mul_comm, Nat.mul_add_mod, Nat.mod_eq_of_lt less]

/-- The registers with the arguments of `sys_switch`. -/
def withContexts (x : Reg → BitVec 32) (old new : Nat) : Reg → BitVec 32 :=
  Function.update (Function.update x a0 (BitVec.ofNat 32 old)) a1 (BitVec.ofNat 32 new)

theorem withContexts_old (x : Reg → BitVec 32) (old new : Nat) :
    withContexts x old new a0 = BitVec.ofNat 32 old := by
  rw [withContexts, Function.update_of_ne (by decide), Function.update_self]

theorem withContexts_new (x : Reg → BitVec 32) (old new : Nat) :
    withContexts x old new a1 = BitVec.ofNat 32 new :=
  Function.update_self ..

/-- `task_go` in front of its call of `sys_switch`. -/
def osReady (l : TaskLayout) (s : Coop) : Coop :=
  { s with x := withContexts s.x (l.ctx .os) (l.ctx (.task s.currentTask)) }

/-- `task_os` in front of its call of `sys_switch`. -/
def taskReady (l : TaskLayout) (s : Coop) : Coop :=
  { s with x := withContexts s.x (l.ctx s.ctxNow) (l.ctx .os) }

/-- Code that changes nothing spares everything. -/
theorem spared_refl (own : Option Nat) : Spared l own m m := ⟨fun _ _ => .refl, fun _ _ _ => .refl⟩

theorem osReady_step (inOs : s.point = .os) : Step l s .osRun (s.osReady l) := .osRun inOs (spared_refl none)

theorem osReady_go (inOs : s.point = .os) : Step l (s.osReady l) .taskGo (s.osReady l).taskGo :=
  .taskGo inOs (withContexts_old s.x _ (l.ctx (.task s.currentTask))) (withContexts_new s.x (l.ctx .os) _)

theorem taskReady_step {entry : Reg → BitVec 32} (leaving : s.point = .leaving i entry) :
    Step l s .run (s.taskReady l) :=
  .run (.inr ⟨entry, leaving⟩) (spared_refl (some i))

theorem taskReady_leave {entry : Reg → BitVec 32} (leaving : s.point = .leaving i entry) :
    Step l (s.taskReady l) .taskOs ((s.taskReady l).taskOs i entry) :=
  .taskOs leaving (withContexts_old s.x _ (l.ctx .os)) (withContexts_new s.x (l.ctx s.ctxNow) _)

/-- What `task_os` reaches: `os_main`, with the registers of its call of `sys_switch`. -/
theorem Sound.leaves (sound : s.Sound l) {entry : Reg → BitVec 32} (step : Step l s .taskOs s')
    (leaving : s.point = .leaving i entry) : Leaves l s s' i entry := by
  have after : s'.Sound l := sound.step step
  cases step with
  | @taskOs j entry' leaving' old new =>
      obtain ⟨rfl, rfl⟩ := CoopPoint.leaving.inj (leaving'.symm.trans leaving)
      have waits : (s.taskOs j entry').status j = .waiting ⟨entry', s.x, s.memory⟩ := Function.update_self ..
      obtain ⟨link, saved⟩ := after.osBack rfl
      exact ⟨rfl, rfl, link, sameFrame_of_saved saved, ⟨_, waits, rfl, rfl, after.waits j _ waits⟩,
        fun k other => Function.update_of_ne other ..⟩

/-- What `task_go` reaches where the task waits: `task_os`, with the registers of its call of `sys_switch`. -/
theorem Sound.regains (sound : s.Sound l) {a : Away} (step : Step l s .taskGo s')
    (waits : s.status s.currentTask = .waiting a) : Regains s s' s.currentTask a := by
  have after : s'.Sound l := sound.step step
  cases step with
  | taskGo inOs old new =>
      obtain ⟨status, point⟩ := taskGo_waiting waits
      obtain ⟨b, waits', link, saved⟩ := after.returned _ point
      rw [status, waits, CoopStatus.waiting.injEq] at waits'
      subst waits'
      exact ⟨point, rfl, link, sameFrame_of_saved saved, status⟩

/-- What `task_go` reaches where the task has not begun: its function, on its own stack. -/
theorem Sound.enters (sound : s.Sound l) (step : Step l s .taskGo s')
    (fresh : s.status s.currentTask = .fresh) : s'.point = .task s.currentTask ∧
      s'.ctxNow = .task s.currentTask ∧ s'.pc = s.function s.currentTask ∧
      s'.x sp = BitVec.ofNat 32 (l.stack s.currentTask + (STACK_SIZE - 1)) := by
  cases step with
  | taskGo inOs old new =>
      have booted : s.point ≠ .boot := by simp [inOs]
      have small := sound.current_small booted
      obtain ⟨function, top⟩ := sound.fresh _ (sound.current booted) fresh
      exact ⟨(taskGo_fresh fresh).2, rfl, (taskGo_loaded old new small (ra, 0) (by decide)).trans function,
        (taskGo_loaded old new small (sp, 4) (by decide)).trans top⟩

/-- A task that calls `task_os` is back behind its call, with the registers of the call. -/
theorem Sound.resumes (sound : s.Sound l) {s1 s2 : Coop} (inTask : s.point = .task i) (call : Step l s .call s1)
    (steps : (coopSystem l).StepsUnder (fun state _ => state.point ≠ .task i) s1 s2)
    (home : s2.point = .task i) : s2.pc = s.x ra ∧ SameFrame s.x s2.x := by
  have sound1 := sound.step call
  have way : OnTheWay i s.x s1 := by
    cases call with
    | call inTask' =>
        rw [inTask] at inTask'
        cases inTask'
        exact .inl rfl
  obtain ⟨sound2, away | ⟨-, link, frame⟩⟩ := sound1.returnsHome way steps
  · exact absurd away (sound2.home home)
  · exact ⟨link, frame⟩

/-- In the loop of `os_main` no task runs. -/
theorem Sound.idle (sound : s.Sound l) (inOs : s.point = .os) (i : Nat) :
    s.status i = .fresh ∨ ∃ a, s.status i = .waiting a := by
  cases status : s.status i with
  | fresh => exact .inl rfl
  | running =>
      have in_ := (sound.runs i).mp status
      rw [inOs] at in_
      exact in_.elim
  | waiting a => exact .inr ⟨a, rfl⟩

/-- Only a task that was created has the hart. -/
theorem Sound.created (sound : s.Sound l) (on : s.point.On i) : i < s.taskTop := by
  have booted : s.point ≠ .boot := by
    intro booting
    rw [booting] at on
    exact on
  rw [(sound.on i on).1]
  exact sound.current booted

/-- `task_go` can return to the loop of `os_main`. -/
theorem Sound.osReturns (sound : s.Sound l) (returned : s.point = .osBack) :
    Step l s .osBack { s with point := .os, currentTask := (s.currentTask + 1) % s.taskTop } := by
  obtain ⟨link, saved⟩ := sound.osBack returned
  exact .osBack returned link (sameFrame_of_saved saved)

/-- Every run of the system cooperates. -/
theorem cooperative (run : (coopSystem l).Reachable s) : s.Cooperates l := by
  have sound : s.Sound l := run.invariant sound_inductive
  have known {i : Nat} (below : i < s.taskTop) : i < MAX_TASK := lt_of_lt_of_le below sound.top
  constructor
  case idle => exact sound.idle
  case goes =>
    exact fun inOs => ⟨_, _, osReady_step inOs, osReady_go inOs⟩
  case takes =>
    intro s' step
    cases step with
    | taskGo inOs old new => exact ⟨sound.current (by simp [inOs]), rfl⟩
  case enters => exact fun s' => sound.enters
  case regains => exact fun s' a => sound.regains
  case backs =>
    intro i s' a returned waits step
    cases step with
    | back returned' waits' link kept stack restored spared =>
        obtain rfl := CoopPoint.back.inj (returned'.symm.trans returned)
        obtain rfl := CoopStatus.waiting.inj (waits'.symm.trans waits)
        exact ⟨rfl, rfl, restored, fun j other => Function.update_of_ne other ..⟩
  case calls =>
    exact fun i entry leaving => ⟨_, _, taskReady_step leaving, taskReady_leave leaving⟩
  case leaves => exact fun s' i entry => sound.leaves
  case next =>
    intro s' step
    cases step with
    | osBack returned link kept => exact ⟨rfl, rfl⟩
  case resumes => exact fun i s1 s2 => sound.resumes
  case returns =>
    intro i returned
    obtain ⟨a, waits, link, saved⟩ := sound.returned i returned
    exact ⟨_, .back (x := a.entry) (m := s.memory) returned waits link (sameFrame_of_saved saved)
      (sound.waits i a waits).stack (fun _ _ => rfl) (spared_refl (some i))⟩
  case osReturns => exact fun returned => ⟨_, sound.osReturns returned⟩
  case created => exact fun i => sound.created
  case contexts =>
    intro i below j below' other
    have apart : CtxRef.task i ≠ .task j := by simpa using other
    exact ctx_apart (known below) (known below') apart
  case stacks_apart => exact fun i _ j _ other => stack_apart other
  case contexts_stacks => exact fun i below j below' => ctx_stack_apart (.task i) (known below) (known below')
  case order => exact sound.order
  case rounds => exact fun k long => rounds_of_order sound.order long

/-- A place for the objects. -/
def layoutAt : TaskLayout where
  ctxOs := 0x80010000
  ctxTasks := 0x80010100
  taskStack := 0x80010800
  ctxOs_fits := by decide
  ctxTasks_fits := by decide
  taskStack_fits := by decide
  os_tasks := .inl (by decide)
  os_stack := .inl (by decide)
  tasks_stack := .inl (by decide)

/-- The start of `os_start`. -/
def starting : Coop where
  x _ := 0
  pc := 0
  memory _ := 0
  taskTop := 0
  ctxNow := .os
  currentTask := 0
  point := .boot
  status _ := .fresh
  osCall _ := 0
  function _ := 0
  history := []

/-- The state in which the next task has begun, has the registers `x` and calls `task_os`. -/
def inFirstTurn (l : TaskLayout) (s : Coop) (x : Reg → BitVec 32) : Coop :=
  { (s.osReady l).taskGo with x := x, point := .leaving s.currentTask x }

/-- The first turn of a task, to the next round of the loop. -/
def firstTurn (l : TaskLayout) (s : Coop) (x : Reg → BitVec 32) : Coop :=
  { ((s.inFirstTurn l x).taskReady l).taskOs s.currentTask x with
    point := .os, currentTask := (s.currentTask + 1) % s.taskTop }

theorem inFirstTurn_reachable (run : (coopSystem l).Reachable s) (inOs : s.point = .os)
    (fresh : s.status s.currentTask = .fresh) : (coopSystem l).Reachable (s.inFirstTurn l x) := by
  have entered := (run.step trivial (osReady_step inOs)).step trivial (osReady_go inOs)
  have point : (s.osReady l).taskGo.point = .task s.currentTask := (taskGo_fresh fresh).2
  exact (entered.step trivial (@Coop.Step.run l _ _ x (s.osReady l).taskGo.pc _ (.inl point)
    (spared_refl _))).step trivial (.call point)

theorem firstTurn_reachable (run : (coopSystem l).Reachable s) (inOs : s.point = .os)
    (fresh : s.status s.currentTask = .fresh) : (coopSystem l).Reachable (s.firstTurn l x) := by
  have called : (coopSystem l).Reachable (s.inFirstTurn l x) := inFirstTurn_reachable run inOs fresh
  have left := (called.step trivial (taskReady_step rfl)).step trivial (taskReady_leave rfl)
  exact left.step trivial ((left.invariant sound_inductive).osReturns rfl)

/-- Two tasks are created, and the loop is entered. -/
def twoTasks : Coop :=
  { (starting.taskCreate layoutAt 0x80001000).taskCreate layoutAt 0x80002000 with
    point := .os, currentTask := 0 }

theorem twoTasks_reachable : (coopSystem layoutAt).Reachable twoTasks := by
  have first : (coopSystem layoutAt).Reachable (starting.taskCreate layoutAt 0x80001000) :=
    .step (.initial ⟨rfl, rfl, rfl, fun _ => rfl⟩) trivial (.create rfl (by decide))
  exact (first.step trivial (.create rfl (by decide))).step trivial (.enterLoop rfl (by decide))

/-- The registers with which a task calls `task_os`. -/
def atCall (i : Nat) (r : Reg) : BitVec 32 := BitVec.ofNat 32 (0x80003000 + 0x1000 * i + 4 * r.toNat)

/-- Both tasks have their first turn and leave. In the second round the first one gets the hart back and goes on
behind its call, with the registers of the call. -/
theorem cooperative_two : ∃ s : Coop, s.Cooperates layoutAt ∧ s.point = .task 0 ∧ s.history = [0, 1, 0] ∧
    s.pc = atCall 0 ra ∧ SameFrame (atCall 0) s.x ∧ ∃ a, s.status 1 = .waiting a ∧ a.entry = atCall 1 := by
  have round : (coopSystem layoutAt).Reachable
      ((twoTasks.firstTurn layoutAt (atCall 0)).firstTurn layoutAt (atCall 1)) :=
    firstTurn_reachable (firstTurn_reachable twoTasks_reachable rfl rfl) rfl rfl
  have entered := (round.step trivial (osReady_step rfl)).step trivial (osReady_go rfl)
  obtain ⟨s, back⟩ := (cooperative entered).returns 0 rfl
  have run := entered.step trivial back
  obtain ⟨point, link, frame, others⟩ := (cooperative entered).backs 0 s _ rfl rfl back
  refine ⟨s, cooperative run, point, ?_, link, frame, ⟨atCall 1, _, _⟩, others 1 (by decide), rfl⟩
  cases back with
  | back => rfl

end Coop

end Riscv2os.MiniRiscvOs
