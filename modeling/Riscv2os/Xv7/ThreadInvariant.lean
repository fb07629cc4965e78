import Riscv2os.Xv7.ThreadRules

/-!
# The invariant of the threads

The code of every thread follows the rules from an `Env` that is true: the locks it holds are locked by its CPU, no
other CPU has them, and interrupts are off meanwhile. A process is on one CPU at most, or its context can be switched
to. Who sleeps on a sleep lock sleeps for a reason: the lock is taken, or a `wakeup` is on its way.
-/

namespace Riscv2os.Xv7.Threads

open Threads.Instr

/-- What the thread of a process relies on while it is switched out. -/
def parked (p : Fin NPROC) (drop : Option Nat) : Env := { held := [.proc p], drop := drop }

/-- One CPU. -/
structure CpuOk (cpu : Cpu) (e : Env) : Prop where
  code : Ok cpu.proc cpu.code e
  noff : cpu.noff = e.depth
  free : e.depth = 0 → cpu.intr = e.on
  locked : e.depth ≠ 0 → cpu.intr = false ∧ cpu.intena = e.on

/-- The spin locks, and the locks that CPUs hold. -/
structure LocksOk (lock : Lock → Spinlock) (envs : Fin NCPU → Env) : Prop where
  nodup : ∀ c, (envs c).held.Nodup
  alone : ∀ {lk c c'}, lk ∈ (envs c).held → lk ∈ (envs c').held → c = c'
  locked : ∀ lk, (lock lk).locked = true ↔ ∃ c, lk ∈ (envs c).held
  cpu : ∀ lk c, (lock lk).cpu = some c ↔ lk ∈ (envs c).held ∧ (envs c).bare ≠ some lk

/-- Processes, on CPUs and switched out. -/
structure ProcsOk (k : Kernel) (envs : Fin NCPU → Env) : Prop where
  once : ∀ {p c c'}, (k.cpu c).proc = some p → (k.cpu c').proc = some p → c = c'
  own : ∀ {p c}, (k.cpu c).proc = some p → (k.proc p).state = (envs c).own
  idle : ∀ {c}, (k.cpu c).proc = none → (envs c).own = .running
  leaves : ∀ {p c}, (k.cpu c).proc = some p → (envs c).own ≠ .running → .proc p ∈ (envs c).held
  saved : ∀ {p c}, (k.cpu c).proc = some p → Ok none (k.cpu c).scheduler (parked p none)
  out : ∀ {p}, (∀ c, (k.cpu c).proc ≠ some p) → (k.proc p).state ≠ .running
  context : ∀ {p}, (∀ c, (k.cpu c).proc ≠ some p) → (k.proc p).state = .runnable ∨ (k.proc p).state = .sleeping →
    ∃ drop, (∀ s, drop = some s → k.holds p s = true) ∧ Ok (some p) (k.proc p).context (parked p drop)

/-- A process sleeps on a channel, or has given up the lock and is about to. -/
def Waits (k : Kernel) (envs : Fin NCPU → Env) (p : Fin NPROC) (chan : Chan) (lk : Lock) : Prop :=
  ((k.proc p).state = .sleeping ∧ (k.proc p).chan = some chan ∧ (k.proc p).given = some lk) ∨
    ∃ c, (k.cpu c).proc = some p ∧ (envs c).going = some (chan, lk) ∧ lk ∉ (envs c).held

/-- Sleepers, and who wakes them. -/
structure SleepersOk (k : Kernel) (envs : Fin NCPU → Env) : Prop where
  awake : ∀ {c chan lk} {p : Fin NPROC}, lk ∈ (envs c).held → p < (envs c).awake chan lk → ¬ Waits k envs p chan lk
  /-- Who gave up a lock for `sleep` has the lock of its process. -/
  gives : ∀ {p c chan lk}, (k.cpu c).proc = some p → (envs c).going = some (chan, lk) → lk ∉ (envs c).held →
    .proc p ∈ (envs c).held
  going : ∀ {c s}, (envs c).going = some (.sleep s, .sleep s) → .sleep s ∈ (envs c).held → (k.sleeplock s).locked = true
  waits : ∀ {p s}, Waits k envs p (.sleep s) (.sleep s) →
    (k.sleeplock s).locked = true ∨ ∃ c, .sleep s ∈ (envs c).held ∧ (envs c).dirty s = true
  given : ∀ {p s}, (k.proc p).state = .sleeping → (k.proc p).chan = some (.sleep s) → (k.proc p).given = some (.sleep s)

/-- Sleep locks, and who has them. -/
structure SleeplocksOk (k : Kernel) (envs : Fin NCPU → Env) : Prop where
  locked : ∀ s, (k.sleeplock s).locked = true ↔ ∃ p, k.holds p s = true
  alone : ∀ {p q s}, k.holds p s = true → k.holds q s = true → p = q
  drop : ∀ {p c s}, (k.cpu c).proc = some p → (envs c).drop = some s → k.holds p s = true

structure Sound (k : Kernel) (envs : Fin NCPU → Env) : Prop where
  cpus : ∀ c, CpuOk (k.cpu c) (envs c)
  locks : LocksOk k.lock envs
  procs : ProcsOk k envs
  sleepers : SleepersOk k envs
  sleeplocks : SleeplocksOk k envs

variable {k : Kernel} {envs : Fin NCPU → Env} {c c' : Fin NCPU} {cpu : Cpu} {e e' : Env} {lk : Lock} {p q : Fin NPROC}
  {rest code : List Instr} {chan : Chan} {s : Nat}

@[simp] theorem setHolds_self (k : Kernel) (p : Fin NPROC) (s : Nat) (value : Bool) :
    (k.setHolds p s value).holds p s = value := by
  simp [Kernel.setHolds]

theorem setHolds_ne {k : Kernel} {p q : Fin NPROC} {s t : Nat} {value : Bool} (other : q ≠ p ∨ t ≠ s) :
    (k.setHolds p s value).holds q t = k.holds q t := by
  by_cases same : q = p
  · subst same
    simp [Kernel.setHolds, Function.update_of_ne (other.resolve_left (not_not.mpr rfl))]
  · simp [Kernel.setHolds, Function.update_of_ne same]

@[simp] theorem setSleeplock_self (k : Kernel) (s : Nat) (lock : Sleeplock) :
    (k.setSleeplock s lock).sleeplock s = lock :=
  Function.update_self ..

theorem setSleeplock_ne {k : Kernel} {s t : Nat} {lock : Sleeplock} (other : t ≠ s) :
    (k.setSleeplock s lock).sleeplock t = k.sleeplock t := Function.update_of_ne other ..

/-! ## What does not change -/

/-- A field that is the same in a new `Env` is the same everywhere. -/
theorem update_same {α : Type} (envs : Fin NCPU → Env) (c : Fin NCPU) (e' : Env) (f : Env → α)
    (same : f e' = f (envs c)) (c' : Fin NCPU) :
    f (Function.update envs c e' c') = f (envs c') := by
  by_cases here : c' = c
  · subst here
    rw [Function.update_self, same]
  · rw [Function.update_of_ne here]

/-- One CPU takes a step. -/
theorem cpus_update (cpus : ∀ c, CpuOk (k.cpu c) (envs c)) (ok : CpuOk cpu e') (c' : Fin NCPU) :
    CpuOk ((k.setCpu c cpu).cpu c') (Function.update envs c e' c') := by
  by_cases here : c' = c
  · subst here
    simpa only [Kernel.setCpu, Function.update_self] using ok
  · simpa only [Kernel.setCpu, Function.update_of_ne here] using cpus c'

/-- The locks are as they were. -/
theorem LocksOk.congr {lock : Lock → Spinlock} {envs' : Fin NCPU → Env} (locks : LocksOk lock envs)
    (held : ∀ c, (envs' c).held = (envs c).held) (bare : ∀ c, (envs' c).bare = (envs c).bare) : LocksOk lock envs' := by
  constructor <;> intros <;> simp only [held, bare] at *
  · exact locks.nodup _
  · exact locks.alone ‹_› ‹_›
  · exact locks.locked _
  · exact locks.cpu _ _

section Congr

variable {k' : Kernel} {envs' : Fin NCPU → Env} (proc : ∀ c, (k'.cpu c).proc = (k.cpu c).proc)
include proc

/-- The processes are as they were. -/
theorem ProcsOk.congr (procs : ProcsOk k envs) (scheduler : ∀ c, (k'.cpu c).scheduler = (k.cpu c).scheduler)
    (same : k'.proc = k.proc) (own : ∀ c, (envs' c).own = (envs c).own)
    (holds : ∀ {p s}, (∀ c, (k.cpu c).proc ≠ some p) → k.holds p s = true → k'.holds p s = true)
    (leaves : ∀ {p c}, (k.cpu c).proc = some p → (envs c).own ≠ .running → .proc p ∈ (envs' c).held) :
    ProcsOk k' envs' where
  once := by
    intro p c c'
    rw [proc, proc]
    exact procs.once
  own := by
    intro p c
    rw [proc, own, same]
    exact procs.own
  idle := by
    intro c
    rw [proc, own]
    exact procs.idle
  leaves := by
    intro p c
    rw [proc, own]
    exact leaves
  saved := by
    intro p c
    rw [proc, scheduler]
    exact procs.saved
  out := by
    intro p
    simp only [proc, same]
    exact procs.out
  context := by
    intro p
    simp only [proc, same]
    intro off live
    obtain ⟨drop, has, ok⟩ := procs.context off live
    exact ⟨drop, fun s drops => holds off (has s drops), ok⟩

/-- Who waits depends on the processes and on what is known. -/
theorem waits_congr (same : k'.proc = k.proc) (going : ∀ c, (envs' c).going = (envs c).going)
    (held : ∀ c, (envs' c).held = (envs c).held) : Waits k' envs' p chan lk ↔ Waits k envs p chan lk := by
  unfold Waits
  simp only [proc, same, going, held]

/-- Nobody falls asleep, and not more is said to be awake. -/
theorem SleepersOk.congr (sleepers : SleepersOk k envs) (same : k'.proc = k.proc)
    (sleeplock : ∀ {s}, (k.sleeplock s).locked = true → (k'.sleeplock s).locked = true)
    (going : ∀ c, (envs' c).going = (envs c).going) (held : ∀ c, (envs' c).held = (envs c).held)
    (known : ∀ {c chan lk} {p : Fin NPROC}, lk ∈ (envs c).held → p < (envs' c).awake chan lk →
      p < (envs c).awake chan lk ∨ ¬ Waits k envs p chan lk)
    (dirty : ∀ {c s p}, .sleep s ∈ (envs c).held → (envs c).dirty s = true →
      (envs' c).dirty s = true ∨ ¬ Waits k envs p (.sleep s) (.sleep s)) : SleepersOk k' envs' where
  awake := by
    intro c chan lk p member below
    rw [held] at member
    rw [waits_congr proc same going held]
    rcases known member below with before | awake
    · exact sleepers.awake member before
    · exact awake
  gives := by
    intro p c chan lk
    rw [proc, going, held]
    exact sleepers.gives
  going := by
    intro c s
    rw [going, held]
    exact fun some member => sleeplock (sleepers.going some member)
  waits := by
    intro p s
    rw [waits_congr proc same going held]
    intro waits
    refine (sleepers.waits waits).imp sleeplock ?_
    rintro ⟨c, member, isDirty⟩
    rcases dirty member isDirty with still | awake
    · exact ⟨c, by rw [held]; exact member, still⟩
    · exact absurd waits awake
  given := by
    intro p s
    rw [same]
    exact sleepers.given

/-- The sleep locks are as they were. -/
theorem SleeplocksOk.congr (sleeplocks : SleeplocksOk k envs) (sleeplock : k'.sleeplock = k.sleeplock)
    (holds : k'.holds = k.holds) (drop : ∀ c, (envs' c).drop = (envs c).drop) : SleeplocksOk k' envs' where
  locked := by
    rw [sleeplock, holds]
    exact sleeplocks.locked
  alone := by
    rw [holds]
    exact sleeplocks.alone
  drop := by
    intro p c s
    rw [proc, drop, holds]
    exact sleeplocks.drop

end Congr

section SetProc

variable {k' : Kernel} {envs' : Fin NCPU → Env} {new : Proc} (proc : ∀ c, (k'.cpu c).proc = (k.cpu c).proc)
  (scheduler : ∀ c, (k'.cpu c).scheduler = (k.cpu c).scheduler) (set : k'.proc = Function.update k.proc p new)

include proc scheduler set in
/-- The process on a CPU changes. -/
theorem ProcsOk.onCpu (procs : ProcsOk k envs) (holds : k'.holds = k.holds) (process : (k.cpu c).proc = some p)
    (state : new.state = e'.own) (held : e'.held = (envs c).held) (member : .proc p ∈ (envs c).held) :
    ProcsOk k' (Function.update envs c e') where
  once := by
    intro q c₁ c₂
    rw [proc, proc]
    exact procs.once
  own := by
    intro q c' process'
    rw [proc] at process'
    by_cases here : c' = c
    · subst here
      rw [process] at process'
      cases process'
      rw [set, Function.update_self, Function.update_self, state]
    · have other : q ≠ p := fun same => here (procs.once process' (same ▸ process))
      rw [set, Function.update_of_ne other, Function.update_of_ne here]
      exact procs.own process'
  idle := by
    intro c' idle
    rw [proc] at idle
    have here : c' ≠ c := fun here => by rw [here, process] at idle; cases idle
    rw [Function.update_of_ne here]
    exact procs.idle idle
  leaves := by
    intro q c' process' leaving
    rw [proc] at process'
    by_cases here : c' = c
    · subst here
      rw [process] at process'
      cases process'
      rw [Function.update_self, held]
      exact member
    · rw [Function.update_of_ne here] at leaving ⊢
      exact procs.leaves process' leaving
  saved := by
    intro q c'
    rw [proc, scheduler]
    exact procs.saved
  out := by
    intro q off
    simp only [proc] at off
    have other : q ≠ p := fun same => off c (same ▸ process)
    rw [set, Function.update_of_ne other]
    exact procs.out off
  context := by
    intro q off
    simp only [proc] at off
    have other : q ≠ p := fun same => off c (same ▸ process)
    rw [set, Function.update_of_ne other, holds]
    exact procs.context off

include proc scheduler set in
/-- A process that is on no CPU changes. -/
theorem ProcsOk.offCpu (procs : ProcsOk k envs) (holds : k'.holds = k.holds) (off : ∀ c, (k.cpu c).proc ≠ some p)
    (state : new.state ≠ .running) (context : new.state = .runnable ∨ new.state = .sleeping →
      ∃ drop, (∀ s, drop = some s → k.holds p s = true) ∧ Ok (some p) new.context (parked p drop))
    (own : ∀ c, (envs' c).own = (envs c).own) (held : ∀ c, (envs' c).held = (envs c).held) : ProcsOk k' envs' where
  once := by
    intro q c₁ c₂
    rw [proc, proc]
    exact procs.once
  own := by
    intro q c' process'
    rw [proc] at process'
    have other : q ≠ p := fun same => off c' (same ▸ process')
    rw [set, Function.update_of_ne other, own]
    exact procs.own process'
  idle := by
    intro c'
    rw [proc, own]
    exact procs.idle
  leaves := by
    intro q c'
    rw [proc, own, held]
    exact procs.leaves
  saved := by
    intro q c'
    rw [proc, scheduler]
    exact procs.saved
  out := by
    intro q off'
    simp only [proc] at off'
    by_cases this : q = p
    · rw [set, this, Function.update_self]
      exact state
    · rw [set, Function.update_of_ne this]
      exact procs.out off'
  context := by
    intro q off'
    simp only [proc] at off'
    by_cases this : q = p
    · rw [set, this, Function.update_self, holds]
      exact context
    · rw [set, Function.update_of_ne this, holds]
      exact procs.context off'

include proc set in
/-- Nobody falls asleep. -/
theorem waits_awake (awake : new.state ≠ .sleeping) (going : ∀ c, (envs' c).going = (envs c).going)
    (held : ∀ c, (envs' c).held = (envs c).held) (waiting : Waits k' envs' q chan lk) : Waits k envs q chan lk := by
  rcases waiting with ⟨state, on, given⟩ | ⟨c, process, some, notHeld⟩
  · by_cases this : q = p
    · rw [set, this, Function.update_self] at state
      exact absurd state awake
    · rw [set, Function.update_of_ne this] at state on given
      exact .inl ⟨state, on, given⟩
  · rw [proc] at process
    rw [going] at some
    rw [held] at notHeld
    exact .inr ⟨c, process, some, notHeld⟩

include proc set in
/-- A process that does not sleep is written. -/
theorem SleepersOk.awoken (sleepers : SleepersOk k envs) (awake : new.state ≠ .sleeping)
    (sleeplock : k'.sleeplock = k.sleeplock) (going : ∀ c, (envs' c).going = (envs c).going)
    (held : ∀ c, (envs' c).held = (envs c).held) (dirty : ∀ c, (envs' c).dirty = (envs c).dirty)
    (known : ∀ {c chan lk} {q : Fin NPROC}, lk ∈ (envs c).held → q < (envs' c).awake chan lk →
      q < (envs c).awake chan lk ∨ ¬ Waits k' envs' q chan lk) : SleepersOk k' envs' where
  awake := by
    intro c chan lk q member below waiting
    rw [held] at member
    rcases known member below with before | awoken
    · exact sleepers.awake member before (waits_awake proc set awake going held waiting)
    · exact awoken waiting
  gives := by
    intro p c chan lk
    rw [proc, going, held]
    exact sleepers.gives
  going := by
    intro c s
    rw [going, held, sleeplock]
    exact sleepers.going
  waits := by
    intro q s waiting
    rw [sleeplock]
    refine (sleepers.waits (waits_awake proc set awake going held waiting)).imp id ?_
    rintro ⟨c, member, isDirty⟩
    exact ⟨c, by rw [held]; exact member, by rw [dirty]; exact isDirty⟩
  given := by
    intro q s state on
    by_cases this : q = p
    · rw [set, this, Function.update_self] at state
      exact absurd state awake
    · rw [set, Function.update_of_ne this] at state on ⊢
      exact sleepers.given state on

end SetProc

/-- A switch from one thread to another, in none of which a `sleep` is under way. -/
theorem SleepersOk.switch (sleepers : SleepersOk k envs) {new : Proc} (quiet : (envs c).going = none)
    (going : e'.going = none) (held : e'.held = (envs c).held) (awake : e'.awake = fun _ _ => 0)
    (dirty : e'.dirty = (envs c).dirty)
    (asleep : new.state = .sleeping →
      (k.proc p).state = .sleeping ∧ new.chan = (k.proc p).chan ∧ new.given = (k.proc p).given) :
    SleepersOk ((k.setProc p new).setCpu c cpu) (Function.update envs c e') := by
  have sameHeld := update_same envs c e' Env.held held
  have sameGoing := update_same envs c e' Env.going (going.trans quiet.symm)
  have here {c'} {chan lk} (going : (envs c').going = some (chan, lk)) : c' ≠ c := by
    rintro rfl
    rw [quiet] at going
    cases going
  have process {c'} (other : c' ≠ c) : ((k.setProc p new).setCpu c cpu).cpu c' = k.cpu c' :=
    Function.update_of_ne other ..
  have state {q} (sleeping : (((k.setProc p new).setCpu c cpu).proc q).state = .sleeping) :
      (k.proc q).state = .sleeping ∧ (((k.setProc p new).setCpu c cpu).proc q).chan = (k.proc q).chan ∧
        (((k.setProc p new).setCpu c cpu).proc q).given = (k.proc q).given := by
    change (Function.update k.proc p new q).state = _ at sleeping
    change _ ∧ (Function.update k.proc p new q).chan = _ ∧ (Function.update k.proc p new q).given = _
    by_cases this : q = p
    · rw [this, Function.update_self] at sleeping ⊢
      exact asleep sleeping
    · rw [Function.update_of_ne this] at sleeping ⊢
      exact ⟨sleeping, rfl, rfl⟩
  have waits {q chan lk} (waiting : Waits ((k.setProc p new).setCpu c cpu) (Function.update envs c e') q chan lk) :
      Waits k envs q chan lk := by
    rcases waiting with ⟨sleeping, on, given⟩ | ⟨c', current, some, notHeld⟩
    · obtain ⟨before, sameChan, sameGiven⟩ := state sleeping
      exact .inl ⟨before, sameChan.symm.trans on, sameGiven.symm.trans given⟩
    · rw [sameGoing] at some
      rw [sameHeld] at notHeld
      rw [process (here some)] at current
      exact .inr ⟨c', current, some, notHeld⟩
  constructor
  · intro c' chan lk q member below waiting
    by_cases this : c' = c
    · subst this
      rw [Function.update_self, awake] at below
      exact absurd below (Nat.not_lt_zero _)
    · rw [Function.update_of_ne this] at member below
      exact sleepers.awake member below (waits waiting)
  · intro q c' chan lk current some notHeld
    rw [sameGoing] at some
    rw [sameHeld] at notHeld ⊢
    rw [process (here some)] at current
    exact sleepers.gives current some notHeld
  · intro c' s some member
    rw [sameGoing] at some
    rw [sameHeld] at member
    exact sleepers.going some member
  · intro q s waiting
    refine (sleepers.waits (waits waiting)).imp id ?_
    rintro ⟨c', member, isDirty⟩
    refine ⟨c', by rwa [sameHeld], ?_⟩
    rwa [update_same envs c e' Env.dirty dirty]
  · intro q s sleeping on
    obtain ⟨before, sameChan, sameGiven⟩ := state sleeping
    rw [sameGiven]
    exact sleepers.given before (sameChan.symm.trans on)

/-- A field of a CPU that is the same in the new one is the same everywhere. -/
theorem setCpu_same {α : Type} (k : Kernel) (c : Fin NCPU) (cpu : Cpu) (f : Cpu → α) (same : f cpu = f (k.cpu c))
    (c' : Fin NCPU) :
    f ((k.setCpu c cpu).cpu c') = f (k.cpu c') := by
  by_cases here : c' = c
  · subst here
    simpa only [Kernel.setCpu, Function.update_self] using same
  · simp only [Kernel.setCpu, Function.update_of_ne here]

namespace Sound

variable (sound : Sound k envs)
include sound

/-- A step of a CPU that keeps to itself, but may learn about sleepers. -/
theorem learns (e' : Env) (ok : CpuOk cpu e') (proc : cpu.proc = (k.cpu c).proc)
    (scheduler : cpu.scheduler = (k.cpu c).scheduler)
    (held : e'.held = (envs c).held) (bare : e'.bare = (envs c).bare) (own : e'.own = (envs c).own)
    (going : e'.going = (envs c).going)
    (drop : ∀ {p s}, (k.cpu c).proc = some p → e'.drop = some s → k.holds p s = true)
    (known : ∀ {chan lk} {p : Fin NPROC}, lk ∈ (envs c).held → p < e'.awake chan lk →
      p < (envs c).awake chan lk ∨ ¬ Waits k envs p chan lk)
    (dirty : ∀ {s p}, .sleep s ∈ (envs c).held → (envs c).dirty s = true →
      e'.dirty s = true ∨ ¬ Waits k envs p (.sleep s) (.sleep s)) :
    Sound (k.setCpu c cpu) (Function.update envs c e') := by
  have sameProc := setCpu_same k c cpu Cpu.proc proc
  have sameHeld := update_same envs c e' Env.held held
  have sameOwn := update_same envs c e' Env.own own
  have sameGoing := update_same envs c e' Env.going going
  refine ⟨cpus_update sound.cpus ok, sound.locks.congr sameHeld (update_same _ _ _ Env.bare bare), ?_, ?_, ?_⟩
  · refine sound.procs.congr sameProc (setCpu_same _ _ _ Cpu.scheduler scheduler) rfl sameOwn (fun _ has => has) ?_
    intro p c' process leaving
    rw [sameHeld]
    exact sound.procs.leaves process leaving
  · refine sound.sleepers.congr sameProc rfl id sameGoing sameHeld ?_ ?_
    · intro c' chan lk p member below
      by_cases here : c' = c
      · subst here
        rw [Function.update_self] at below
        exact known member below
      · rw [Function.update_of_ne here] at below
        exact .inl below
    · intro c' s p member isDirty
      by_cases here : c' = c
      · subst here
        rw [Function.update_self]
        exact dirty member isDirty
      · rw [Function.update_of_ne here]
        exact .inl isDirty
  · refine ⟨sound.sleeplocks.locked, sound.sleeplocks.alone, fun {p c' s} current drops => ?_⟩
    have current' := (sameProc c').symm.trans current
    by_cases here : c' = c
    · subst here
      rw [Function.update_self] at drops
      exact drop current' drops
    · rw [Function.update_of_ne here] at drops
      exact sound.sleeplocks.drop current' drops

/-- A step of a CPU that keeps to itself. -/
theorem alone (e' : Env) (ok : CpuOk cpu e') (proc : cpu.proc = (k.cpu c).proc)
    (scheduler : cpu.scheduler = (k.cpu c).scheduler)
    (held : e'.held = (envs c).held) (bare : e'.bare = (envs c).bare) (own : e'.own = (envs c).own)
    (going : e'.going = (envs c).going) (drop : e'.drop = (envs c).drop)
    (awake : ∀ {lk} chan, lk ∈ (envs c).held → e'.awake chan lk ≤ (envs c).awake chan lk)
    (dirty : ∀ {s}, .sleep s ∈ (envs c).held → e'.dirty s = (envs c).dirty s) :
    Sound (k.setCpu c cpu) (Function.update envs c e') :=
  sound.learns e' ok proc scheduler held bare own going
    (fun process drops => sound.sleeplocks.drop process (drop ▸ drops))
    (fun member below => .inl (below.trans_le (awake _ member)))
    fun member isDirty => .inl ((dirty member).trans isDirty)

/-- The CPU goes on with other code. -/
theorem goto (ok : Ok (k.cpu c).proc code (envs c)) : Sound (k.goto c code) envs := by
  have cpu := sound.cpus c
  have next : Sound (k.goto c code) (Function.update envs c (envs c)) := sound.alone _
    ⟨ok, cpu.noff, cpu.free, cpu.locked⟩ rfl rfl rfl rfl rfl rfl rfl (fun _ _ => le_rfl) (fun _ => rfl)
  rwa [Function.update_eq_self] at next

end Sound

end Riscv2os.Xv7.Threads
