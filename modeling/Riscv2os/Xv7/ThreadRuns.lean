import Riscv2os.Xv7.ThreadSteps

/-!
# Runs of the threads

From `booted` on, whatever the order of the steps of the CPUs, of interrupts and of calls of the client: no step panics,
a spin lock is left to the CPU that has it, a process runs on one CPU at most, no `wakeup` is lost, and a sleep lock has
one owner and no forgotten sleepers.
-/

namespace Riscv2os.Xv7.Threads

open Riscv2os.Std
open Threads.Instr

variable {k k' : Kernel} {envs : Fin NCPU → Env} {c c' : Fin NCPU} {e : Env} {lk : Lock} {p q : Fin NPROC}
  {rest code : List Instr} {chan : Chan} {s : Nat} {i : Instr} {on : Bool}

namespace Sound

variable (sound : Sound k envs)
include sound

/-! ## The client -/

/-- Where no lock is without its CPU, the CPU holds what it is known to hold. -/
theorem holds_iff (bare : (envs c).bare = none) (lk : Lock) : k.Holds c lk ↔ lk ∈ (envs c).held := by
  rw [Kernel.Holds, sound.locks.cpu, bare]
  exact and_iff_left nofun

/-- What can be called follows the rules. -/
theorem call (client : k.AtClient c) (callable : k.Callable c i) :
    ∃ k' envs', k.run (.call c i) = .ok k' ∧ Sound k' envs' := by
  have cpu := sound.cpus c
  obtain ⟨steady, bare⟩ := cpu.code.steady client
  have holds := sound.holds_iff bare
  have noff : (k.cpu c).noff = (envs c).held.length := by rw [cpu.noff, Env.depth, steady.extra, Nat.add_zero]
  have none_held (zero : (k.cpu c).noff = 0) : (envs c).held = [] := List.length_eq_zero_iff.mp (noff ▸ zero)
  have fits {j : Instr} : j.Fits (envs c) := .plain bare steady.going
  -- The call goes on with the client.
  have goes {j : Instr} (ok : Ok (k.cpu c).proc (j :: (k.cpu c).code) (envs c)) :
      ∃ k' envs', k.run (.call c j) = .ok k' ∧ Sound k' envs' := ⟨_, envs, rfl, sound.goto ok⟩
  have switched : Ok (k.cpu c).proc (k.cpu c).code (envs c).switched :=
    cpu.code.calm client ⟨steady.extra, rfl, steady.going, steady.dirty⟩ bare rfl rfl
  have woken (chan : Chan) : Ok (k.cpu c).proc (k.cpu c).code ((envs c).woken chan) := by
    refine cpu.code.calm client ⟨steady.extra, steady.own, steady.going, ?_⟩ bare rfl rfl
    funext s
    simp only [Env.woken, steady.dirty, ite_self]
  have same (f : Chan → Lock → Nat) : Ok (k.cpu c).proc (k.cpu c).code { envs c with awake := f } :=
    cpu.code.calm client ⟨steady.extra, steady.own, steady.going, steady.dirty⟩ bare rfl rfl
  cases i with
  | acquire lk =>
      have fresh : lk ∉ (envs c).held := fun member => callable ((holds lk).mpr member)
      refine goes ⟨fits, ⟨fresh, by rw [steady.going]; cases lk <;> simp, steady.own⟩, ?_⟩
      exact cpu.code.calm client ⟨steady.extra, steady.own, steady.going, steady.dirty⟩ bare rfl rfl
  | release lk =>
      refine goes ⟨fits, .of_steady steady ((holds lk).mp callable), ?_⟩
      exact cpu.code.calm client ⟨steady.extra, steady.own, steady.going, steady.dirty⟩ bare rfl rfl
  | yield => exact goes ⟨fits, ⟨callable.1, none_held callable.2, steady⟩, switched⟩
  | sleep chan lk =>
      obtain ⟨process, has, one, outer⟩ := callable
      have only : (envs c).held = [lk] := by
        obtain ⟨l, this⟩ := List.length_eq_one_iff.mp (noff.symm.trans one)
        have member := (holds lk).mp has
        rw [this, List.mem_singleton] at member
        rw [this, member]
      exact goes ⟨fits, ⟨process, only, steady, outer⟩, switched⟩
  | wakeup chan i =>
      obtain ⟨rfl, free⟩ := callable
      exact goes ⟨fits, ⟨steady.going, fun p member => free p ((holds _).mpr member), fun _ _ => Nat.zero_le _,
        steady.own⟩, woken chan⟩
  | wakeup1 p => exact goes ⟨fits, ⟨(holds _).mp callable, steady.own⟩, same _⟩
  | rouse p => exact goes ⟨fits, ⟨(holds _).mp callable, steady.own⟩, same _⟩
  | exit parent =>
      obtain ⟨p, process, apart, has, hasParent, two⟩ := callable
      have member := (holds _).mp has
      have memberParent := (holds _).mp hasParent
      have left : (envs c).held.erase (.proc parent) = [.proc p] := by
        have length := List.length_erase_of_mem memberParent
        rw [← noff, two] at length
        obtain ⟨l, this⟩ := List.length_eq_one_iff.mp length
        have other : Lock.proc p ≠ .proc parent := fun same => apart (Lock.proc.inj same)
        have stays := (List.mem_erase_of_ne other).mpr member
        rw [this, List.mem_singleton] at stays
        rw [this, stays]
      refine goes ⟨fits, ⟨steady, memberParent, p, process, apart, left⟩, fun chan lk later => ?_⟩
      have going := cpu.code.going later
      rw [steady.going] at going
      cases going
  | acquiresleep s => exact goes ⟨fits, ⟨callable.1, none_held callable.2, steady⟩, switched⟩
  | releasesleep s =>
      obtain ⟨⟨on, last⟩, ⟨p, process, has⟩, free, none⟩ := callable
      have ok := cpu.code
      rw [last] at ok
      have steady' : ({ envs c with drop := some s } : Env).Steady :=
        ⟨steady.extra, steady.own, steady.going, steady.dirty⟩
      have ok' : Ok (k.cpu c).proc (.releasesleep s :: (k.cpu c).code) { envs c with drop := some s } := by
        rw [last]
        refine ⟨.plain bare steady.going, ⟨by rw [process]; exact Option.some_ne_none p, steady',
          fun member => free ((holds _).mpr member), fun q member => none q ((holds _).mpr member), rfl⟩, ?_⟩
        refine ⟨.plain bare steady.going, ⟨⟨steady.extra, steady.own, steady.going, ?_⟩, ok.needs.2.1, rfl⟩, rfl⟩
        funext t
        simp only [Instr.after, Env.released, Env.woken, Env.dropped, Env.acquired, steady.dirty, Chan.sleep.injEq]
        by_cases this : s = t
        · rw [if_pos this]
        · rw [if_neg this, if_neg (Ne.symm this)]
      refine ⟨_, _, rfl, sound.learns { envs c with drop := some s } ⟨ok', cpu.noff, cpu.free, cpu.locked⟩
        rfl rfl rfl rfl rfl rfl (fun {q t} current drops => ?_) (fun _ below => .inl below) fun _ dirty => .inl dirty⟩
      rw [process] at current
      cases current
      cases drops
      exact has
  | _ => exact callable.elim

/-- The client sets its interrupts. -/
theorem setIntr (client : k.AtClient c) (noff : (k.cpu c).noff = 0) :
    ∃ k' envs', k.run (.setIntr c on) = .ok k' ∧ Sound k' envs' := by
  have cpu := sound.cpus c
  have depth : (envs c).depth = 0 := cpu.noff.symm.trans noff
  exact ⟨_, _, rfl, sound.alone { envs c with on := on }
    ⟨cpu.code.noted client on, cpu.noff, fun _ => rfl, fun deep => absurd depth deep⟩
    rfl rfl rfl rfl rfl rfl rfl (fun _ _ => le_rfl) (fun _ => rfl)⟩

/-- A process on no CPU changes from one state in which it does not sleep to another. -/
theorem sets {new : Proc} (off : ∀ c, (k.cpu c).proc ≠ some p) (state : new.state ≠ .running)
    (awake : new.state ≠ .sleeping) (context : new.state = .runnable →
      ∃ drop, (∀ s, drop = some s → k.holds p s = true) ∧ Ok (some p) new.context (parked p drop)) :
    Sound (k.setProc p new) envs := by
  have sameProc (c : Fin NCPU) : ((k.setProc p new).cpu c).proc = (k.cpu c).proc := rfl
  have set : (k.setProc p new).proc = Function.update k.proc p new := rfl
  refine ⟨sound.cpus, sound.locks, ?_, ?_, ⟨sound.sleeplocks.locked, sound.sleeplocks.alone, sound.sleeplocks.drop⟩⟩
  · refine sound.procs.offCpu sameProc (fun _ => rfl) set rfl off state (fun live => ?_) (fun _ => rfl) fun _ => rfl
    exact context (live.resolve_right awake)
  · exact sound.sleepers.awoken sameProc set awake rfl (fun _ => rfl) (fun _ => rfl) (fun _ => rfl)
      fun _ below => .inl below

/-- A process is set up under its lock. -/
theorem fork {pid : Nat} (client : k.AtClient c) (has : k.Holds c (.proc p)) (unused : (k.proc p).state = .unused) :
    ∃ k' envs', k.run (.fork c p pid) = .ok k' ∧ Sound k' envs' := by
  obtain ⟨steady, bare⟩ := (sound.cpus c).code.steady client
  have off := sound.off ((sound.holds_iff bare _).mp has) steady.own (by rw [unused]; nofun)
  refine ⟨_, envs, rfl, sound.sets off nofun nofun fun _ => ⟨none, nofun, ?_⟩⟩
  exact ⟨.plain rfl rfl, .of_proc rfl rfl List.mem_cons_self, .plain rfl rfl, ⟨⟨rfl, rfl, rfl, rfl⟩, rfl, rfl⟩, rfl⟩

/-- A zombie is freed under its lock. -/
theorem freeproc (client : k.AtClient c) (has : k.Holds c (.proc p)) (zombie : (k.proc p).state = .zombie) :
    ∃ k' envs', k.run (.freeproc c p) = .ok k' ∧ Sound k' envs' := by
  obtain ⟨steady, bare⟩ := (sound.cpus c).code.steady client
  have off := sound.off ((sound.holds_iff bare _).mp has) steady.own (by rw [zombie]; nofun)
  exact ⟨_, envs, rfl, sound.sets off nofun nofun nofun⟩

/-- With interrupts on, no lock is held and nothing is under way. -/
theorem idle (intr : (k.cpu c).intr = true) : (envs c).Idle ∧ (envs c).on = true := by
  have cpu := sound.cpus c
  have depth : (envs c).depth = 0 := by
    by_contra deep
    rw [(cpu.locked deep).1] at intr
    cases intr
  have held : (envs c).held = [] := List.length_eq_zero_iff.mp (Nat.eq_zero_of_add_eq_zero_right depth)
  have no_lock {lk : Lock} : lk ∉ (envs c).held := by rw [held]; exact List.not_mem_nil
  refine ⟨⟨held, Nat.eq_zero_of_add_eq_zero_left depth, ?_, ?_, ?_⟩, (cpu.free depth).symm.trans intr⟩
  · cases at_ : (k.cpu c).code with
    | nil =>
        have ok := cpu.code
        rw [at_] at ok
        exact ok.elim
    | cons i rest =>
        have ok := sound.ok at_
        by_contra some
        obtain ⟨lk, bare⟩ := Option.ne_none_iff_exists'.mp some
        rcases ok.fits.bare lk bare with rfl | rfl
        · exact no_lock ok.needs.2.1
        · exact no_lock ok.needs.2.held
  · by_contra leaving
    cases process : (k.cpu c).proc with
    | none => exact leaving (sound.procs.idle process)
    | some p => exact no_lock (sound.procs.leaves process leaving)
  · cases at_ : (k.cpu c).code with
    | nil =>
        have ok := cpu.code
        rw [at_] at ok
        exact ok.elim
    | cons i rest =>
        by_contra some
        exact (sound.ok at_).fits.going some held

/-- An interrupt is taken, with no lock held. -/
theorem interrupt (intr : (k.cpu c).intr = true) : ∃ k' envs', k.run (.interrupt c) = .ok k' ∧ Sound k' envs' := by
  have cpu := sound.cpus c
  obtain ⟨idle, on⟩ := sound.idle intr
  have depth : (envs c).depth = 0 := by rw [Env.depth, idle.held, idle.extra]; rfl
  refine ⟨_, _, rfl, sound.alone { drop := (envs c).drop }
    ⟨cpu.code.interrupted idle on, cpu.noff.trans depth, fun _ => rfl, fun deep => absurd rfl deep⟩
    rfl rfl idle.held.symm idle.bare.symm idle.own.symm idle.going.symm rfl ?_ ?_⟩
  · intro lk chan member
    exact Nat.zero_le _
  · intro s member
    rw [idle.held] at member
    cases member

/-- The handler returns. -/
theorem ret (noff : (k.cpu c).noff = 0) (at_ : (k.cpu c).code = .handler on :: rest) :
    ∃ k' envs', k.run (.ret c) = .ok k' ∧ Sound k' envs' := by
  have cpu := sound.cpus c
  have ok := sound.ok at_
  have steady := ok.needs.1
  obtain ⟨e', idle, on', drop, next⟩ := ok.2.2
  have depth : (envs c).depth = 0 := cpu.noff.symm.trans noff
  have held : (envs c).held = [] := List.length_eq_zero_iff.mp (Nat.eq_zero_of_add_eq_zero_right depth)
  have depth' : e'.depth = 0 := by rw [Env.depth, idle.held, idle.extra]; rfl
  refine ⟨_, _, rfl, sound.alone e' ⟨?_, noff.trans depth'.symm, fun _ => on'.symm, fun deep => absurd depth' deep⟩
    rfl rfl (idle.held.trans held.symm) (idle.bare.trans (ok.bare (by simp) (by simp)).symm)
    (idle.own.trans steady.own.symm)
    (idle.going.trans steady.going.symm) drop ?_ ?_⟩
  · rw [at_]
    exact next
  · intro lk chan member
    rw [held] at member
    cases member
  · intro s member
    rw [held] at member
    cases member

/-- Whatever is allowed returns, and keeps the invariant. -/
theorem run {l : Label} (allowed : k.Allowed l) : ∃ k' envs', k.run l = .ok k' ∧ Sound k' envs' := by
  cases l with
  | step c => exact sound.exec c
  | call c i => exact sound.call allowed.1 allowed.2
  | setIntr c on => exact sound.setIntr allowed.1 allowed.2
  | fork c p pid => exact sound.fork allowed.1 allowed.2.1 allowed.2.2
  | freeproc c p => exact sound.freeproc allowed.1 allowed.2.1 allowed.2.2
  | interrupt c => exact sound.interrupt allowed
  | ret c =>
      obtain ⟨noff, on, rest, at_⟩ := allowed
      exact sound.ret noff at_

end Sound

/-- The invariant holds after `userinit`. -/
theorem booted_sound : Sound Kernel.booted fun _ => {} where
  cpus _ := ⟨⟨.plain rfl rfl, ⟨rfl, rfl, rfl, rfl, rfl, rfl⟩, rfl⟩, rfl, fun _ => rfl, fun deep => absurd rfl deep⟩
  locks := ⟨fun _ => List.nodup_nil, nofun, fun _ => iff_of_false nofun nofun, fun _ _ => iff_of_false nofun nofun⟩
  procs := by
    refine ⟨nofun, nofun, fun _ => rfl, nofun, nofun, fun {p} _ => ?_, fun {p} _ live => ?_⟩
    all_goals
      unfold Kernel.booted at *
      dsimp only at *
      split at *
    · nofun
    · nofun
    · next first =>
        subst first
        refine ⟨none, nofun, ?_⟩
        exact ⟨.plain rfl rfl, .of_proc rfl rfl List.mem_cons_self, .plain rfl rfl,
          ⟨⟨rfl, rfl, rfl, rfl⟩, rfl, rfl⟩, rfl⟩
    · exact live.elim nofun nofun
  sleepers := by
    have waits {p chan lk} : ¬ Waits Kernel.booted (fun _ => {}) p chan lk := by
      rintro (⟨-, on, -⟩ | ⟨c, current, -⟩)
      · unfold Kernel.booted at on
        dsimp only at on
        split at on <;> cases on
      · cases current
    refine ⟨nofun, nofun, nofun, fun waiting => absurd waiting waits, fun {p s} _ on => ?_⟩
    unfold Kernel.booted at on
    dsimp only at on
    split at on <;> cases on
  sleeplocks := ⟨fun _ => iff_of_false nofun nofun, nofun, nofun⟩

/-- The invariant holds in every run. -/
theorem sound_of_reachable (reachable : Kernel.system.ReachableUnder Kernel.Allowed k) : ∃ envs, Sound k envs := by
  have kept : Kernel.system.Inductive Kernel.Allowed fun k => ∃ envs, Sound k envs := by
    constructor
    · rintro _ rfl
      exact ⟨_, booted_sound⟩
    · rintro k l k' ⟨envs, sound⟩ allowed ran
      obtain ⟨next, envs', ran', sound'⟩ := sound.run allowed
      have same : next = k' := Except.ok.inj (ran'.symm.trans ran)
      exact ⟨envs', same ▸ sound'⟩
  exact reachable.invariant kept

/-! ## Spin locks and interrupts -/

/-- The CPU on which something happens. -/
def Label.cpu : Label → Fin NCPU
  | .step c | .call c _ | .setIntr c _ | .fork c _ _ | .freeproc c _ | .interrupt c | .ret c => c

/-- Only two steps change who has a lock. -/
theorem exec_lock (ran : k.exec c rest i = .ok k') (set : i ≠ .setCpu lk) (clear : i ≠ .clearCpu lk) :
    (k'.lock lk).cpu = (k.lock lk).cpu := by
  have unchanged {l : Lock} (f : Spinlock) (same : l = lk → f.cpu = (k.lock lk).cpu) :
      (Function.update k.lock l f lk).cpu = (k.lock lk).cpu := by
    by_cases this : lk = l
    · subst this
      rw [Function.update_self, same rfl]
    · rw [Function.update_of_ne this]
  cases i
  case setCpu l =>
    cases ran
    exact unchanged _ fun same => absurd (same ▸ rfl) set
  case clearCpu l =>
    cases ran
    exact unchanged _ fun same => absurd (same ▸ rfl) clear
  case lockRelease l =>
    cases ran
    exact unchanged _ fun same => by rw [same]
  case testAndSet l =>
    rw [Kernel.exec] at ran
    split at ran <;> cases ran
    · rfl
    · exact unchanged _ fun same => by rw [same]
  all_goals
    simp only [Kernel.exec] at ran
    repeat' split at ran
    all_goals
      cases ran
      try rfl

/-- What the spin locks are for. -/
structure LocksSafe (k : Kernel) : Prop where
  /-- Nothing panics. -/
  returns : ∀ l, k.Allowed l → ∃ k', k.run l = .ok k'
  /-- A lock stays with the CPU that has it, whatever another CPU does. -/
  kept : ∀ {c lk l k'}, k.Holds c lk → k.Allowed l → l.cpu ≠ c → k.run l = .ok k' → k'.Holds c lk
  /-- Meanwhile another CPU that wants it does not go on. -/
  spins : ∀ {c c' lk rest}, k.Holds c lk → (k.cpu c').code = .testAndSet lk :: rest → k.run (.step c') = .ok k
  off : ∀ {c lk}, k.Holds c lk → (k.cpu c).intr = false
  /-- `noff` is the number of the locks that the CPU has. -/
  counted : ∀ {c}, k.AtClient c →
    ∃ held : List Lock, held.Nodup ∧ held.length = (k.cpu c).noff ∧ ∀ lk, lk ∈ held ↔ k.Holds c lk
  /-- Behind the last `release` interrupts are what they were, on whatever CPU that is. -/
  restored : ∀ {c on rest}, (k.cpu c).code = .client on :: rest ∨ (k.cpu c).code = .handler on :: rest →
    (k.cpu c).noff = 0 → (k.cpu c).intr = on

/-- The spin locks do what they are for, in every interleaving. -/
theorem locks_safe (reachable : Kernel.system.ReachableUnder Kernel.Allowed k) : LocksSafe k := by
  obtain ⟨envs, sound⟩ := sound_of_reachable reachable
  have member {c lk} (has : k.Holds c lk) : lk ∈ (envs c).held := ((sound.locks.cpu lk c).mp has).1
  constructor
  · intro l allowed
    obtain ⟨k', -, ran, -⟩ := sound.run allowed
    exact ⟨k', ran⟩
  · intro c lk l k' has allowed other ran
    unfold Kernel.Holds at has ⊢
    cases l with
    | step c' =>
        rw [Kernel.run] at ran
        cases at_ : (k.cpu c').code with
        | nil =>
            rw [at_] at ran
            cases ran
            exact has
        | cons i rest =>
            rw [at_] at ran
            have elsewhere : lk ∉ (envs c').held := fun there => other (sound.locks.alone there (member has))
            have ok := sound.ok at_
            rw [exec_lock ran ?_ ?_, has]
            · rintro rfl
              exact elsewhere ok.needs.2.1
            · rintro rfl
              exact elsewhere ok.needs.held
    | _ =>
        cases ran
        exact has
  · intro c c' lk rest has at_
    have locked : (k.lock lk).locked = true := (sound.locks.locked lk).mpr ⟨c, member has⟩
    simp only [Kernel.run, at_, Kernel.exec]
    rw [if_pos locked]
  · intro c lk has
    have deep : (envs c).depth ≠ 0 := by
      have positive := List.length_pos_of_mem (member has)
      rw [Env.depth]
      omega
    exact ((sound.cpus c).locked deep).1
  · intro c client
    obtain ⟨steady, bare⟩ := (sound.cpus c).code.steady client
    refine ⟨(envs c).held, sound.locks.nodup c, ?_, fun lk => (sound.holds_iff bare lk).symm⟩
    rw [(sound.cpus c).noff, Env.depth, steady.extra, Nat.add_zero]
  · intro c on rest at_ noff
    have cpu := sound.cpus c
    rw [cpu.free (cpu.noff.symm.trans noff)]
    have ok := cpu.code
    rcases at_ with at_ | at_
    · rw [at_] at ok
      exact ok.needs.2.1
    · rw [at_] at ok
      exact ok.needs.2

/-! ## Processes on CPUs -/

/-- Where processes are. -/
structure ProcsSafe (k : Kernel) : Prop where
  once : ∀ {p c c'}, (k.cpu c).proc = some p → (k.cpu c').proc = some p → c = c'
  running : ∀ {p}, (k.proc p).state = .running → ∃ c, (k.cpu c).proc = some p
  /-- A process on a CPU that is not running any more has its lock until it has switched. -/
  leaving : ∀ {p c}, (k.cpu c).proc = some p → (k.proc p).state = .running ∨
    (k.lock (.proc p)).locked = true ∧ k.Holds c (.proc p) ∧ (k.cpu c).intr = false ∧
      ∀ c', c' ≠ c → ¬ k.Holds c' (.proc p)
  /-- A scheduler switches to processes that are on no CPU, and that have code to go on with. -/
  picked : ∀ {c p found rest}, (k.cpu c).code = .pick p found :: rest → (k.proc p).state = .runnable →
    (∀ c', (k.cpu c').proc ≠ some p) ∧ (k.proc p).context ≠ []

/-- The lock of a process that is not running any more is between `acquire` and `release`. -/
theorem leaving_holds {envs : Fin NCPU → Env} (sound : Sound k envs) (current : (k.cpu c).proc = some p)
    (leaving : (k.proc p).state ≠ .running) : k.Holds c (.proc p) := by
  have leaves : (envs c).own ≠ .running := by rwa [← sound.procs.own current]
  refine (sound.locks.cpu _ c).mpr ⟨sound.procs.leaves current leaves, fun bare => ?_⟩
  cases at_ : (k.cpu c).code with
  | nil =>
      have ok := (sound.cpus c).code
      rw [at_] at ok
      exact ok.elim
  | cons i rest =>
      -- Only within `acquire` and `release` is a lock without its CPU, and there the process runs.
      have ok := sound.ok at_
      rcases ok.fits.bare _ bare with rfl | rfl
      · exact leaves ok.needs.2.2
      · exact leaves (ok.needs.2.own p current rfl)

/-- Processes are where they should be, in every interleaving. -/
theorem procs_safe (reachable : Kernel.system.ReachableUnder Kernel.Allowed k) : ProcsSafe k := by
  obtain ⟨envs, sound⟩ := sound_of_reachable reachable
  constructor
  · exact sound.procs.once
  · intro p running
    by_contra off
    exact sound.procs.out (fun c current => off ⟨c, current⟩) running
  · intro p c current
    by_cases running : (k.proc p).state = .running
    · exact .inl running
    have member := sound.procs.leaves current (sound.procs.own current ▸ running)
    have deep : (envs c).depth ≠ 0 := by
      have positive := List.length_pos_of_mem member
      rw [Env.depth]
      omega
    refine .inr ⟨(sound.locks.locked _).mpr ⟨c, member⟩, leaving_holds sound current running,
      ((sound.cpus c).locked deep).1, fun c' other has => ?_⟩
    exact other (sound.locks.alone ((sound.locks.cpu _ c').mp has).1 member)
  · intro c p found rest at_ runnable
    obtain ⟨-, held, steady, -⟩ := (sound.ok at_).needs
    have off := sound.off (c := c) (p := p) (by rw [held]; exact List.mem_singleton_self _) steady.own
      (by rw [runnable]; decide)
    obtain ⟨drop, -, ok⟩ := sound.procs.context off (.inl runnable)
    refine ⟨off, fun empty => ?_⟩
    rw [empty] at ok
    exact ok

/-! ## Sleep and wakeup -/

/-- A process sleeps on a channel for which it gave up a lock, or has called `sleep` and is about to. -/
def Asleep (k : Kernel) (p : Fin NPROC) (chan : Chan) (lk : Lock) : Prop :=
  (k.proc p).state = .sleeping ∧ (k.proc p).chan = some chan ∧ (k.proc p).given = some lk ∨
    ∃ c, (k.cpu c).proc = some p ∧ .fallAsleep chan lk ∈ (k.cpu c).code

/-- No wakeup is lost: where `wakeup` is called with the lock that a sleeper gives up for `sleep`, it leaves none of the
processes behind that it has passed, not even one between its `release` and its switch. -/
theorem wakeup_complete (reachable : Kernel.system.ReachableUnder Kernel.Allowed k) {i : Nat}
    (at_ : (k.cpu c).code = .wakeup chan i :: rest) (has : k.Holds c lk) (before : p < i) : ¬ Asleep k p chan lk := by
  obtain ⟨envs, sound⟩ := sound_of_reachable reachable
  have ok := sound.ok at_
  obtain ⟨going, -, known, -⟩ := ok.needs
  have member : lk ∈ (envs c).held := ((sound.locks.cpu lk c).mp has).1
  have awake := sound.sleepers.awake member (before.trans_le (known lk member))
  rintro (asleep | ⟨c', current, later⟩)
  · exact awake (.inl asleep)
  · have going' := (sound.cpus c').code.going later
    refine awake (.inr ⟨c', current, going', fun there => ?_⟩)
    cases sound.locks.alone there member
    rw [going] at going'
    cases going'

/-! ## Sleep locks -/

/-- What sleep locks are for. -/
structure SleeplocksSafe (k : Kernel) : Prop where
  alone : ∀ {p q s}, k.holds p s = true → k.holds q s = true → p = q
  locked : ∀ s, (k.sleeplock s).locked = true ↔ ∃ p, k.holds p s = true
  /-- Nobody sleeps on a lock that is free, unless a `releasesleep` is about to wake the sleepers. -/
  awake : ∀ {p s}, (k.proc p).state = .sleeping → (k.proc p).chan = some (.sleep s) → (k.sleeplock s).locked = true ∨
    ∃ c i, (k.lock (.sleep s)).locked = true ∧ .wakeup (.sleep s) i ∈ (k.cpu c).code

/-- The sleep locks do what they are for, in every interleaving. -/
theorem sleeplocks_safe (reachable : Kernel.system.ReachableUnder Kernel.Allowed k) : SleeplocksSafe k := by
  obtain ⟨envs, sound⟩ := sound_of_reachable reachable
  refine ⟨sound.sleeplocks.alone, sound.sleeplocks.locked, fun {p s} asleep on => ?_⟩
  refine (sound.sleepers.waits (.inl ⟨asleep, on, sound.sleepers.given asleep on⟩)).imp id ?_
  rintro ⟨c, member, dirty⟩
  obtain ⟨i, ahead⟩ := (sound.cpus c).code.dirty dirty
  exact ⟨c, i, (sound.locks.locked _).mpr ⟨c, member⟩, ahead⟩

/-! ## Two processes on two CPUs -/

instance : Decidable (k.Holds c lk) := inferInstanceAs (Decidable (_ = _))

/-- Whether the first of the steps left is the client's, or a handler's, or the client's and the last. -/
def clientHead : List Instr → Bool
  | .client _ :: _ | .handler _ :: _ => true
  | _ => false

def handlerHead : List Instr → Bool
  | .handler _ :: _ => true
  | _ => false

def clientOnly : List Instr → Bool
  | [.client _] => true
  | _ => false

/-- Whether a channel is not the one of a sleep lock. -/
def notSleep : Chan → Bool
  | .sleep _ => false
  | _ => true

theorem clientHead_iff :
    clientHead code = true ↔ ∃ on rest, code = .client on :: rest ∨ code = .handler on :: rest := by
  rcases code with - | ⟨i, rest⟩
  · simp [clientHead]
  · cases i <;> simp [clientHead]

theorem handlerHead_iff : handlerHead code = true ↔ ∃ on rest, code = .handler on :: rest := by
  rcases code with - | ⟨i, rest⟩
  · simp [handlerHead]
  · cases i <;> simp [handlerHead]

theorem clientOnly_iff : clientOnly code = true ↔ ∃ on, code = [.client on] := by
  rcases code with - | ⟨i, - | ⟨j, rest⟩⟩
  · simp [clientOnly]
  · cases i <;> simp [clientOnly]
  · cases i <;> simp [clientOnly]

theorem notSleep_iff {chan : Chan} : notSleep chan = true ↔ ∀ s, chan ≠ .sleep s := by
  cases chan <;> simp [notSleep]

instance : Decidable (k.AtClient c) := decidable_of_iff _ clientHead_iff

instance : Decidable (∃ on rest, code = .handler on :: rest) := decidable_of_iff _ handlerHead_iff

instance : Decidable (∃ on, code = [.client on]) := decidable_of_iff _ clientOnly_iff

instance (chan : Chan) : Decidable (∀ s, chan ≠ .sleep s) := decidable_of_iff _ notSleep_iff

instance : Decidable (k.Callable c i) := by
  cases i <;> unfold Kernel.Callable <;> infer_instance

instance (l : Label) : Decidable (k.Allowed l) := by
  cases l <;> unfold Kernel.Allowed <;> infer_instance

/-- What happens, as long as it is allowed. -/
def follow (k : Kernel) : List Label → Option Kernel
  | [] => some k
  | l :: labels =>
      if k.Allowed l then
        match k.run l with
        | .ok k' => follow k' labels
        | .error _ => none
      else none

/-- What `follow` reaches is reached. -/
theorem follow_reachable {labels : List Label} (reachable : Kernel.system.ReachableUnder Kernel.Allowed k)
    (followed : follow k labels = some k') : Kernel.system.ReachableUnder Kernel.Allowed k' := by
  induction labels generalizing k with
  | nil =>
      cases followed
      exact reachable
  | cons l labels ih =>
      rw [follow] at followed
      split at followed
      · next allowed =>
          split at followed
          · next ran => exact ih (.step reachable allowed ran) followed
          · cases followed
      · cases followed

/-- Steps of one CPU. -/
def steps (c : Fin NCPU) (n : Nat) : List Label := List.replicate n (.step c)

/-- The first process is scheduled, and forks another one, which is scheduled on another CPU. -/
def pair : List Label :=
  steps 0 16 ++ .call 0 (.acquire (.proc 1)) :: steps 0 5 ++ .fork 0 1 2 :: .call 0 (.release (.proc 1)) :: steps 0 6 ++
    steps 1 29

/-- One process sleeps, the other wakes it. -/
def wakes : List Label :=
  pair ++ .call 1 (.acquire (.other 7)) :: steps 1 5 ++ .call 1 (.sleep (.other 9) (.other 7)) :: steps 1 23 ++
    .call 0 (.acquire (.other 7)) :: steps 0 5 ++ .call 0 (.wakeup (.other 9) 0) :: steps 0 26

/-- One process has a sleep lock, the other one waits for it. -/
def contends : List Label := pair ++ .call 0 (.acquiresleep 3) :: steps 0 13 ++ .call 1 (.acquiresleep 3) :: steps 1 24

/-- A run that is computed reaches a state with the property that is computed. -/
theorem follow_holds {labels : List Label} {P : Kernel → Prop} [DecidablePred P]
    (computed : (follow Kernel.booted labels).any (fun k => decide (P k)) = true) :
    ∃ k, Kernel.system.ReachableUnder Kernel.Allowed k ∧ P k := by
  cases followed : follow Kernel.booted labels with
  | none =>
      rw [followed] at computed
      cases computed
  | some k =>
      rw [followed] at computed
      exact ⟨k, follow_reachable (.initial rfl) followed, of_decide_eq_true computed⟩

/-- The first process has just woken the second. -/
theorem woken : ∃ k, Kernel.system.ReachableUnder Kernel.Allowed k ∧
    (k.cpu 0).code = [.wakeup (.other 9) 2, .client false] ∧ k.Holds 0 (.other 7) ∧ (k.proc 1).state = .runnable := by
  refine @follow_holds wakes _ inferInstance ?_
  decide +kernel

/-- The second process sleeps on a sleep lock that the first has. -/
theorem contended : ∃ k, Kernel.system.ReachableUnder Kernel.Allowed k ∧
    k.holds 0 3 = true ∧ (k.proc 1).state = .sleeping ∧ (k.proc 1).chan = some (.sleep 3) := by
  refine @follow_holds contends _ inferInstance ?_
  decide +kernel

/-- After a wakeup, with the lock of the channel held. -/
theorem locks_safe_woken : ∃ k, k.Holds 0 (.other 7) ∧ LocksSafe k := by
  obtain ⟨k, reachable, -, has, -⟩ := woken
  exact ⟨k, has, locks_safe reachable⟩

/-- After a wakeup: the sleeper can run again. -/
theorem procs_safe_woken : ∃ k, (k.proc 1).state = .runnable ∧ ProcsSafe k := by
  obtain ⟨k, reachable, -, -, runnable⟩ := woken
  exact ⟨k, runnable, procs_safe reachable⟩

/-- The sleeper has been woken. -/
theorem wakeup_complete_woken : ∃ k, (k.proc 1).state = .runnable ∧ ¬ Asleep k 1 (.other 9) (.other 7) := by
  obtain ⟨k, reachable, at_, has, runnable⟩ := woken
  exact ⟨k, runnable, wakeup_complete reachable at_ has (by decide)⟩

/-- One process owns the lock, another sleeps on it. -/
theorem sleeplocks_safe_contended : ∃ k, k.holds 0 3 = true ∧ (k.proc 1).state = .sleeping ∧ SleeplocksSafe k := by
  obtain ⟨k, reachable, has, asleep, -⟩ := contended
  exact ⟨k, has, asleep, sleeplocks_safe reachable⟩

end Riscv2os.Xv7.Threads
