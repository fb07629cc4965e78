import Riscv2os.Xv7.ThreadInvariant

/-!
# The steps of the threads

No step of a thread panics, and every step keeps the invariant, whatever CPU takes it.
-/

namespace Riscv2os.Xv7.Threads

open Threads.Instr

variable {k : Kernel} {envs : Fin NCPU → Env} {c c' : Fin NCPU} {cpu : Cpu} {e e' : Env} {lk : Lock} {p q : Fin NPROC}
  {rest code : List Instr} {chan : Chan} {s : Nat} {i : Instr}

/-- The step returns, and the invariant holds behind it. -/
def Goes (k : Kernel) (c : Fin NCPU) (rest : List Instr) (i : Instr) : Prop :=
  ∃ k' envs', k.exec c rest i = .ok k' ∧ Sound k' envs'

/-- Only one lock changes, and what is known on one CPU. -/
theorem LocksOk.update {lock : Lock → Spinlock} {lock' : Spinlock} (locks : LocksOk lock envs) (nodup : e'.held.Nodup)
    (others : ∀ l, l ≠ lk → (l ∈ e'.held ↔ l ∈ (envs c).held))
    (bare : ∀ l, l ≠ lk → (e'.bare = some l ↔ (envs c).bare = some l))
    (alone : lk ∈ e'.held → ∀ c', c' ≠ c → lk ∉ (envs c').held)
    (locked : lock'.locked = true ↔ lk ∈ e'.held ∨ ∃ c', c' ≠ c ∧ lk ∈ (envs c').held)
    (stamp : ∀ c', lock'.cpu = some c' ↔
      lk ∈ (Function.update envs c e' c').held ∧ (Function.update envs c e' c').bare ≠ some lk) :
    LocksOk (Function.update lock lk lock') (Function.update envs c e') := by
  have held {l : Lock} (other : l ≠ lk) (c' : Fin NCPU) :
      l ∈ (Function.update envs c e' c').held ↔ l ∈ (envs c').held := by
    by_cases here : c' = c
    · subst here
      rw [Function.update_self, others l other]
    · rw [Function.update_of_ne here]
  have bares {l : Lock} (other : l ≠ lk) (c' : Fin NCPU) :
      (Function.update envs c e' c').bare = some l ↔ (envs c').bare = some l := by
    by_cases here : c' = c
    · subst here
      rw [Function.update_self, bare l other]
    · rw [Function.update_of_ne here]
  refine ⟨fun c' => ?_, fun {l c₁ c₂} first second => ?_, fun l => ?_, fun l c' => ?_⟩
  · by_cases here : c' = c
    · subst here
      rwa [Function.update_self]
    · rw [Function.update_of_ne here]
      exact locks.nodup c'
  · by_cases this : l = lk
    · subst this
      by_cases here₁ : c₁ = c
      · by_contra different
        rw [here₁, Function.update_self] at first
        rw [Function.update_of_ne (fun here₂ => different (here₁.trans here₂.symm))] at second
        exact alone first c₂ (fun here₂ => different (here₁.trans here₂.symm)) second
      · rw [Function.update_of_ne here₁] at first
        by_cases here₂ : c₂ = c
        · rw [here₂, Function.update_self] at second
          exact absurd first (alone second c₁ here₁)
        · rw [Function.update_of_ne here₂] at second
          exact locks.alone first second
    · exact locks.alone ((held this c₁).mp first) ((held this c₂).mp second)
  · by_cases this : l = lk
    · subst this
      rw [Function.update_self, locked]
      constructor
      · rintro (member | ⟨c', here, member⟩)
        · exact ⟨c, by rwa [Function.update_self]⟩
        · exact ⟨c', by rwa [Function.update_of_ne here]⟩
      · rintro ⟨c', member⟩
        by_cases here : c' = c
        · subst here
          rw [Function.update_self] at member
          exact .inl member
        · rw [Function.update_of_ne here] at member
          exact .inr ⟨c', here, member⟩
    · rw [Function.update_of_ne this, locks.locked]
      exact exists_congr fun c' => (held this c').symm
  · by_cases this : l = lk
    · subst this
      rw [Function.update_self, stamp]
    · rw [Function.update_of_ne this, locks.cpu, held this, ne_eq, ne_eq, bares this]

namespace Sound

variable (sound : Sound k envs)
include sound

/-- The code of a CPU follows the rules. -/
theorem ok (at_ : (k.cpu c).code = i :: rest) : Ok (k.cpu c).proc (i :: rest) (envs c) := at_ ▸ (sound.cpus c).code

/-- A process that is not running is on no CPU, where its lock is held by a thread that runs. -/
theorem off (member : .proc p ∈ (envs c).held) (own : (envs c).own = .running) (state : (k.proc p).state ≠ .running)
    (c' : Fin NCPU) : (k.cpu c').proc ≠ some p := by
  intro current
  have same := sound.procs.own current
  have here := sound.locks.alone member (sound.procs.leaves current (same ▸ state))
  subst here
  exact state (same.trans own)

/-! ## Spin locks -/

/-- `push_off`: interrupts are off from here on. -/
theorem pushOff (at_ : (k.cpu c).code = .pushOff :: rest) : Goes k c rest .pushOff := by
  have ok := sound.ok at_
  have cpu := sound.cpus c
  refine ⟨_, _, rfl, sound.alone { envs c with extra := (envs c).extra + 1 } ⟨ok.2.2, ?_, ?_, ?_⟩ rfl rfl rfl rfl
    rfl rfl rfl (fun _ _ => le_rfl) (fun _ => rfl)⟩
  · exact congrArg (· + 1) cpu.noff
  · intro none
    exact absurd none (Nat.succ_ne_zero _)
  · refine fun _ => ⟨rfl, ?_⟩
    change (if (k.cpu c).noff = 0 then (k.cpu c).intr else (k.cpu c).intena) = (envs c).on
    rw [cpu.noff]
    split
    · next none => exact cpu.free none
    · next some => exact (cpu.locked some).2

/-- The test of `holding` comes out as it should. -/
theorem holding {expected : Bool} {message : String} (at_ : (k.cpu c).code = .holding lk expected message :: rest) :
    Goes k c rest (.holding lk expected message) := by
  have ok := sound.ok at_
  have needs : lk ∈ (envs c).held ↔ expected = true := ok.needs
  unfold Goes
  rw [Kernel.exec]
  by_cases locked : (k.lock lk).locked = true
  · rw [if_pos locked]
    exact ⟨_, envs, rfl, sound.goto ⟨ok.fits.other (ok.bare nofun nofun), needs, ok.2.2⟩⟩
  · rw [if_neg locked]
    have fresh : ¬ expected = true := fun held => locked ((sound.locks.locked lk).mpr ⟨c, needs.mpr held⟩)
    rw [if_neg fresh]
    exact ⟨_, envs, rfl, sound.goto ok.2.2⟩

/-- So does the test of `lk->cpu` alone. -/
theorem holdingCpu {expected : Bool} {message : String}
    (at_ : (k.cpu c).code = .holdingCpu lk expected message :: rest) :
    Goes k c rest (.holdingCpu lk expected message) := by
  have ok := sound.ok at_
  have needs : lk ∈ (envs c).held ↔ expected = true := ok.needs
  have bare := ok.bare nofun nofun
  have result : decide ((k.lock lk).cpu = some c) = expected := by
    rw [Bool.eq_iff_iff, decide_eq_true_eq, sound.locks.cpu, bare, needs]
    exact and_iff_left nofun
  unfold Goes
  rw [Kernel.exec]
  rw [if_pos result]
  exact ⟨_, envs, rfl, sound.goto ok.2.2⟩

/-- The atomic swap gets the lock, or the CPU spins. -/
theorem testAndSet (at_ : (k.cpu c).code = .testAndSet lk :: rest) : Goes k c rest (.testAndSet lk) := by
  have ok := sound.ok at_
  obtain ⟨fresh, apart, extra, -⟩ := ok.needs
  have bare := ok.bare nofun nofun
  have cpu := sound.cpus c
  unfold Goes
  rw [Kernel.exec]
  by_cases locked : (k.lock lk).locked = true
  · rw [if_pos locked]
    exact ⟨_, envs, rfl, sound⟩
  rw [if_neg locked]
  have free (c' : Fin NCPU) : lk ∉ (envs c').held := fun member => locked ((sound.locks.locked lk).mpr ⟨c', member⟩)
  generalize after : ({ (envs c).acquired lk with extra := (envs c).extra - 1, bare := some lk } : Env) = e'
  have held : e'.held = lk :: (envs c).held := by rw [← after]; rfl
  have depth : e'.depth = (envs c).depth := by
    rw [← after]
    change ((envs c).held.length + 1) + ((envs c).extra - 1) = (envs c).held.length + (envs c).extra
    omega
  have going : e'.going = (envs c).going := by rw [← after]; rfl
  have on : e'.on = (envs c).on := by rw [← after]; rfl
  have member {l : Lock} (c' : Fin NCPU) (other : l ≠ lk) :
      l ∈ (Function.update envs c e' c').held ↔ l ∈ (envs c').held := by
    by_cases here : c' = c
    · subst here
      rw [Function.update_self, held, List.mem_cons, or_iff_right other]
    · rw [Function.update_of_ne here]
  have sameProc := setCpu_same k c { k.cpu c with code := rest } Cpu.proc rfl
  have sameGoing := update_same envs c e' Env.going going
  let k' := (k.setLock lk { k.lock lk with locked := true }).goto c rest
  have waits {p chan l} : Waits k' (Function.update envs c e') p chan l ↔ Waits k envs p chan l := by
    refine or_congr Iff.rfl (exists_congr fun c' => ?_)
    rw [sameGoing]
    refine and_congr (by rw [← sameProc c']; rfl) (and_congr_right fun some => ?_)
    by_cases this : l = lk
    · subst this
      have here : c' ≠ c := fun here => apart chan (here ▸ some)
      rw [Function.update_of_ne here]
    · rw [member c' this]
  refine ⟨k', Function.update envs c e', rfl, ?_, ?_, ?_, ?_, ?_⟩
  · refine cpus_update sound.cpus ⟨after ▸ ok.2.2, depth ▸ cpu.noff, ?_, ?_⟩
    · rw [depth, on]
      exact cpu.free
    · rw [depth, on]
      exact cpu.locked
  · refine sound.locks.update ?_ ?_ ?_ (fun _ c' _ => free c') ?_ ?_
    · rw [held]
      exact List.nodup_cons.mpr ⟨fresh, sound.locks.nodup c⟩
    · intro l other
      rw [held, List.mem_cons, or_iff_right other]
    · intro l other
      rw [bare, ← after]
      exact iff_of_false (fun same => other (Option.some.inj same).symm) nofun
    · rw [held]
      exact iff_of_true rfl (.inl List.mem_cons_self)
    · intro c'
      refine iff_of_false (fun same => ?_) ?_
      · exact free c' ((sound.locks.cpu lk c').mp same).1
      · rintro ⟨member, stamped⟩
        by_cases here : c' = c
        · subst here
          rw [Function.update_self, ← after] at stamped
          exact stamped rfl
        · rw [Function.update_of_ne here] at member
          exact free c' member
  · refine sound.procs.congr sameProc (setCpu_same _ _ _ Cpu.scheduler rfl) rfl
      (update_same _ _ _ Env.own (by rw [← after]; rfl)) (fun _ has => has) fun {p c'} process leaving => ?_
    have there := sound.procs.leaves process leaving
    exact (member c' fun same => free c' (same ▸ there)).mpr there
  · refine ⟨fun {c' chan l p} inside below => ?_, fun {p c' chan l} process some notHeld => ?_,
      fun {c' s} some inside => ?_, fun {p s} => ?_, sound.sleepers.given⟩
    · rw [waits]
      by_cases here : c' = c
      · subst here
        rw [Function.update_self] at inside below
        by_cases this : l = lk
        · subst this
          rw [← after] at below
          simp [Env.acquired, Env.forget] at below
        · rw [held, List.mem_cons, or_iff_right this] at inside
          rw [← after] at below
          simp only [Env.acquired, Env.forget, if_neg this] at below
          exact sound.sleepers.awake inside below
      · rw [Function.update_of_ne here] at inside below
        exact sound.sleepers.awake inside below
    · rw [sameGoing] at some
      have notHeld' : l ∉ (envs c').held := by
        by_cases this : l = lk
        · exact this ▸ free c'
        · rwa [member c' this] at notHeld
      have there := sound.sleepers.gives ((sameProc c').symm.trans process) some notHeld'
      exact (member c' fun same => free c' (same ▸ there)).mpr there
    · rw [sameGoing] at some
      have other : Lock.sleep s ≠ lk := by
        rintro rfl
        by_cases here : c' = c
        · exact apart _ (here ▸ some)
        · rw [Function.update_of_ne here] at inside
          exact free c' inside
      exact sound.sleepers.going some ((member c' other).mp inside)
    · rw [waits]
      intro waiting
      refine (sound.sleepers.waits waiting).imp id ?_
      rintro ⟨c', inside, dirty⟩
      refine ⟨c', (member c' fun same => free c' (same ▸ inside)).mpr inside, ?_⟩
      rw [← dirty]
      exact congrFun (update_same _ _ _ Env.dirty (by rw [← after]; rfl) c') s
  · exact sound.sleeplocks.congr sameProc rfl rfl (update_same _ _ _ Env.drop (by rw [← after]; rfl))

/-- A step on a held lock that leaves it held. -/
theorem stamp (e' : Env) {lock' : Spinlock} (member : lk ∈ (envs c).held) (locked : lock'.locked = (k.lock lk).locked)
    (ok : Ok (k.cpu c).proc rest { envs c with bare := e'.bare })
    (others : ∀ l, l ≠ lk → (e'.bare = some l ↔ (envs c).bare = some l))
    (stamped : ∀ c', lock'.cpu = some c' ↔ c' = c ∧ e'.bare ≠ some lk) :
    Sound ((k.setLock lk lock').goto c rest) (Function.update envs c { envs c with bare := e'.bare }) := by
  have cpu := sound.cpus c
  have here {c' : Fin NCPU} : lk ∈ (envs c').held ↔ c' = c :=
    ⟨fun other => sound.locks.alone other member, fun same => same ▸ member⟩
  have sameProc := setCpu_same k c { k.cpu c with code := rest } Cpu.proc rfl
  have same {α : Type} (f : Env → α) (this : f { envs c with bare := e'.bare } = f (envs c)) := update_same _ _ _ f this
  refine ⟨cpus_update sound.cpus ⟨ok, cpu.noff, cpu.free, cpu.locked⟩, ?_, ?_, ?_, ?_⟩
  · refine sound.locks.update (sound.locks.nodup c) (fun _ _ => Iff.rfl) others ?_ ?_ ?_
    · exact fun _ c' different other => different (here.mp other)
    · rw [locked]
      exact iff_of_true ((sound.locks.locked lk).mpr ⟨c, member⟩) (.inl member)
    · intro c'
      rw [stamped, same Env.held rfl, here]
      refine and_congr_right fun at_ => ?_
      rw [at_, Function.update_self]
  · exact sound.procs.congr sameProc (setCpu_same _ _ _ Cpu.scheduler rfl) rfl (same Env.own rfl)
      (fun _ has => has) fun process leaving => by rw [same Env.held rfl]; exact sound.procs.leaves process leaving
  · exact sound.sleepers.congr sameProc rfl id (same Env.going rfl) (same Env.held rfl)
      (fun _ below => .inl (by rwa [same Env.awake rfl] at below)) (fun _ isDirty => .inl (by rwa [same Env.dirty rfl]))
  · exact sound.sleeplocks.congr sameProc rfl rfl (same Env.drop rfl)

/-- `lk->cpu = mycpu()` -/
theorem setCpu (at_ : (k.cpu c).code = .setCpu lk :: rest) : Goes k c rest (.setCpu lk) := by
  have ok := sound.ok at_
  obtain ⟨bare, member, -⟩ := ok.needs
  refine ⟨_, _, rfl, sound.stamp { envs c with bare := none } member rfl ok.2.2 (fun l other => ?_) fun c' => ?_⟩
  · rw [bare]
    exact iff_of_false nofun fun same => other (Option.some.inj same).symm
  · exact ⟨fun same => ⟨(Option.some.inj same).symm, nofun⟩, fun same => congrArg some same.1.symm⟩

/-- `lk->cpu = 0` -/
theorem clearCpu (at_ : (k.cpu c).code = .clearCpu lk :: rest) : Goes k c rest (.clearCpu lk) := by
  have ok := sound.ok at_
  have may : Env.MayRelease (k.cpu c).proc (envs c) lk := ok.needs
  refine ⟨_, _, rfl, sound.stamp { envs c with bare := some lk } may.held rfl ok.2.2 (fun l other => ?_) fun c' => ?_⟩
  · rw [ok.bare nofun nofun]
    exact iff_of_false (fun same => other (Option.some.inj same).symm) nofun
  · exact iff_of_false nofun fun same => same.2 rfl

/-- `lk->locked = 0` -/
theorem lockRelease (at_ : (k.cpu c).code = .lockRelease lk :: rest) : Goes k c rest (.lockRelease lk) := by
  have ok := sound.ok at_
  have bare : (envs c).bare = some lk := ok.needs.1
  have may : Env.MayRelease (k.cpu c).proc (envs c) lk := ok.needs.2
  have cpu := sound.cpus c
  have nodup := sound.locks.nodup c
  have only {c' : Fin NCPU} (member : lk ∈ (envs c').held) : c' = c := sound.locks.alone member may.held
  generalize after : ({ (envs c).released lk with extra := (envs c).extra + 1, bare := none } : Env) = e'
  have held : e'.held = (envs c).held.erase lk := by rw [← after]; rfl
  have gone : lk ∉ e'.held := by rw [held]; exact nodup.not_mem_erase
  have depth : e'.depth = (envs c).depth := by
    have length := List.length_erase_add_one may.held
    rw [← after]
    change ((envs c).held.erase lk).length + ((envs c).extra + 1) = (envs c).held.length + (envs c).extra
    omega
  have going : e'.going = (envs c).going := by rw [← after]; rfl
  have on : e'.on = (envs c).on := by rw [← after]; rfl
  have own : e'.own = (envs c).own := by rw [← after]; rfl
  have awake : e'.awake = (envs c).awake := by rw [← after]; rfl
  have dirty : e'.dirty = (envs c).dirty := by rw [← after]; rfl
  have member {l : Lock} (c' : Fin NCPU) (other : l ≠ lk) :
      l ∈ (Function.update envs c e' c').held ↔ l ∈ (envs c').held := by
    by_cases here : c' = c
    · subst here
      rw [Function.update_self, held, List.mem_erase_of_ne other]
    · rw [Function.update_of_ne here]
  have free (c' : Fin NCPU) : lk ∉ (Function.update envs c e' c').held := by
    by_cases here : c' = c
    · subst here
      rwa [Function.update_self]
    · rw [Function.update_of_ne here]
      exact fun inside => here (only inside)
  have sameProc := setCpu_same k c { k.cpu c with code := rest } Cpu.proc rfl
  have sameGoing := update_same envs c e' Env.going going
  let k' := (k.setLock lk { k.lock lk with locked := false }).goto c rest
  -- Who gives up the lock for `sleep` waits from now on.
  have waits {p chan l} (waiting : Waits k' (Function.update envs c e') p chan l) :
      Waits k envs p chan l ∨ l = lk ∧ (envs c).going = some (chan, lk) ∧ (k.cpu c).proc = some p := by
    rcases waiting with sleeping | ⟨c', process, some, notHeld⟩
    · exact .inl (.inl sleeping)
    · rw [sameGoing] at some
      have process' := (sameProc c').symm.trans process
      by_cases this : l = lk
      · subst this
        by_cases here : c' = c
        · subst here
          exact .inr ⟨rfl, some, process'⟩
        · exact .inl (.inr ⟨c', process', some, fun inside => here (only inside)⟩)
      · exact .inl (.inr ⟨c', process', some, fun inside => notHeld ((member c' this).mpr inside)⟩)
  refine ⟨k', Function.update envs c e', rfl, ?_, ?_, ?_, ?_, ?_⟩
  · refine cpus_update sound.cpus ⟨after ▸ ok.2.2, depth ▸ cpu.noff, ?_, ?_⟩
    · rw [depth, on]
      exact cpu.free
    · rw [depth, on]
      exact cpu.locked
  · refine sound.locks.update ?_ ?_ ?_ (fun inside => absurd inside gone) ?_ ?_
    · rw [held]
      exact nodup.erase lk
    · intro l other
      rw [held, List.mem_erase_of_ne other]
    · intro l other
      rw [bare, ← after]
      exact iff_of_false nofun fun same => other (Option.some.inj same).symm
    · refine iff_of_false Bool.false_ne_true ?_
      rintro (inside | ⟨c', different, inside⟩)
      · exact gone inside
      · exact different (only inside)
    · intro c'
      refine iff_of_false (fun same => ?_) fun inside => free c' inside.1
      obtain ⟨inside, stamped⟩ := (sound.locks.cpu lk c').mp same
      cases only inside
      exact stamped bare
  · refine sound.procs.congr sameProc (setCpu_same _ _ _ Cpu.scheduler rfl) rfl (update_same _ _ _ Env.own own)
      (fun _ has => has) fun {p c'} process leaving => ?_
    have there := sound.procs.leaves process leaving
    refine (member c' fun same => ?_).mpr there
    cases only (same ▸ there)
    exact leaving (may.own p process same.symm)
  · refine ⟨fun {c' chan l p} inside below waiting => ?_, fun {p c' chan l} process some notHeld => ?_,
      fun {c' s} some inside => ?_, fun {p s} waiting => ?_, sound.sleepers.given⟩
    · have other : l ≠ lk := fun same => free c' (same ▸ inside)
      rw [member c' other] at inside
      rw [update_same _ _ _ Env.awake awake] at below
      rcases waits waiting with before | ⟨this, -, -⟩
      · exact sound.sleepers.awake inside below before
      · exact other this
    · rw [sameGoing] at some
      have process' := (sameProc c').symm.trans process
      by_cases here : c' = c
      · subst here
        obtain ⟨q, this, kept⟩ := may.going (by rw [some]; nofun)
        rw [process'] at this
        cases this
        rw [Function.update_self, held]
        exact kept
      · rw [Function.update_of_ne here] at notHeld ⊢
        exact sound.sleepers.gives process' some notHeld
    · have other : Lock.sleep s ≠ lk := fun same => free c' (same ▸ inside)
      rw [sameGoing] at some
      exact sound.sleepers.going some ((member c' other).mp inside)
    · rcases waits waiting with before | ⟨this, some, -⟩
      · refine (sound.sleepers.waits before).imp id ?_
        rintro ⟨c', inside, isDirty⟩
        refine ⟨c', (member c' fun same => ?_).mpr inside, ?_⟩
        · cases only (same ▸ inside)
          rw [may.dirty s same.symm] at isDirty
          cases isDirty
        · rw [← isDirty]
          exact congrFun (update_same _ _ _ Env.dirty dirty c') s
      · subst this
        exact .inl (sound.sleepers.going some may.held)
  · exact sound.sleeplocks.congr sameProc rfl rfl (update_same _ _ _ Env.drop (by rw [← after]; rfl))

/-- `pop_off` does not panic, and the last one restores the interrupts. -/
theorem popOff (at_ : (k.cpu c).code = .popOff :: rest) : Goes k c rest .popOff := by
  have ok := sound.ok at_
  have extra : 0 < (envs c).extra := ok.needs
  have cpu := sound.cpus c
  have depth : (envs c).depth = (envs c).held.length + (envs c).extra := rfl
  have some : (envs c).depth ≠ 0 := by omega
  obtain ⟨off, intena⟩ := cpu.locked some
  have noff := cpu.noff
  unfold Goes
  rw [Kernel.exec]
  rw [if_neg (by rw [off]; nofun), if_neg (by omega)]
  generalize after : ({ envs c with extra := (envs c).extra - 1 } : Env) = e'
  have depth' : e'.depth = (k.cpu c).noff - 1 := by
    rw [← after, noff]
    change (envs c).held.length + ((envs c).extra - 1) = (envs c).held.length + (envs c).extra - 1
    omega
  have on : e'.on = (envs c).on := by rw [← after]
  refine ⟨_, _, rfl, sound.alone e' ⟨after ▸ ok.2.2, depth'.symm, ?_, ?_⟩ rfl rfl (by rw [← after])
    (by rw [← after]) (by rw [← after]) (by rw [← after]) (by rw [← after]) (fun _ _ => by rw [← after])
    (fun _ => by rw [← after])⟩
  · intro none
    rw [depth'] at none
    rw [on, ← intena, none]
    rfl
  · intro more
    rw [depth'] at more
    rw [on, ← intena, decide_eq_false more]
    exact ⟨rfl, rfl⟩

/-! ## The scheduler -/

theorem intrOn (at_ : (k.cpu c).code = .intrOn :: rest) : Goes k c rest .intrOn := by
  have ok := sound.ok at_
  obtain ⟨-, held, steady⟩ := ok.needs
  have depth : (envs c).depth = 0 := by rw [Env.depth, held, steady.extra]; rfl
  exact ⟨_, _, rfl, sound.alone { envs c with on := true }
    ⟨ok.2.2, (sound.cpus c).noff, fun _ => rfl, fun some => absurd depth some⟩
    rfl rfl rfl rfl rfl rfl rfl (fun _ _ => le_rfl) (fun _ => rfl)⟩

theorem intrOff (at_ : (k.cpu c).code = .intrOff :: rest) : Goes k c rest .intrOff := by
  have ok := sound.ok at_
  obtain ⟨-, held, steady⟩ := ok.needs
  have depth : (envs c).depth = 0 := by rw [Env.depth, held, steady.extra]; rfl
  exact ⟨_, _, rfl, sound.alone { envs c with on := false }
    ⟨ok.2.2, (sound.cpus c).noff, fun _ => rfl, fun some => absurd depth some⟩
    rfl rfl rfl rfl rfl rfl rfl (fun _ _ => le_rfl) (fun _ => rfl)⟩

theorem scan {i : Nat} {found : Bool} (at_ : (k.cpu c).code = .scan i found :: rest) :
    Goes k c rest (.scan i found) := by
  have ok := sound.ok at_
  unfold Goes
  rw [Kernel.exec]
  by_cases more : i < NPROC
  · rw [dif_pos more]
    exact ⟨_, envs, rfl, sound.goto (ok.scan more)⟩
  · rw [dif_neg more]
    exact ⟨_, envs, rfl, sound.goto ok.scan_end⟩

/-- A scheduler switches to a process that is runnable, which is on no CPU. -/
theorem pick {found : Bool} (at_ : (k.cpu c).code = .pick p found :: rest) : Goes k c rest (.pick p found) := by
  have ok := sound.ok at_
  obtain ⟨idle, held, steady, off⟩ := ok.needs
  have bare := ok.bare nofun nofun
  have last : rest = [] := ok.2.2
  subst last
  have cpu := sound.cpus c
  have depth : (envs c).depth = 1 := by rw [Env.depth, held, steady.extra]; rfl
  have deep : (envs c).depth ≠ 0 := by omega
  have member : Lock.proc p ∈ (envs c).held := by rw [held]; exact List.mem_singleton_self _
  unfold Goes
  rw [Kernel.exec]
  by_cases runnable : (k.proc p).state = .runnable
  · rw [if_pos runnable]
    have out := sound.off member steady.own (by rw [runnable]; nofun)
    obtain ⟨drop, holds, context⟩ := sound.procs.context out (.inl runnable)
    let cpu' : Cpu := { k.cpu c with
      proc := some p
      scheduler := [.release (.proc p), .scan (p + 1) true] ++ []
      code := (k.proc p).context }
    let new : Proc := { k.proc p with state := .running }
    let k' := (k.setProc p new).setCpu c cpu'
    have elsewhere {c' : Fin NCPU} (other : c' ≠ c) : k'.cpu c' = k.cpu c' := Function.update_of_ne other ..
    have here : k'.cpu c = cpu' := Function.update_self ..
    have picked : k'.proc p = new := Function.update_self ..
    have others {q} (other : q ≠ p) : k'.proc q = k.proc q := Function.update_of_ne other ..
    -- A process on a CPU is the one that was picked, or was there before.
    have process {q c'} (process : (k'.cpu c').proc = some q) :
        c' = c ∧ q = p ∨ c' ≠ c ∧ q ≠ p ∧ (k.cpu c').proc = some q := by
      by_cases this : c' = c
      · rw [this, here] at process
        cases process
        exact .inl ⟨this, rfl⟩
      · rw [elsewhere this] at process
        exact .inr ⟨this, fun same => out c' (same ▸ process), process⟩
    have offCpu {q} (none : ∀ c, (k'.cpu c).proc ≠ some q) : q ≠ p ∧ ∀ c, (k.cpu c).proc ≠ some q := by
      refine ⟨fun same => none c (by rw [here, same]), fun c' process => ?_⟩
      by_cases this : c' = c
      · rw [this, idle] at process
        cases process
      · exact none c' (by rw [elsewhere this, process])
    refine ⟨k', Function.update envs c (parked p drop), rfl, ?_, ?_, ?_, ?_, ?_⟩
    · refine cpus_update (k := k.setProc p new) sound.cpus ⟨context, cpu.noff.trans depth, ?_, fun _ => ?_⟩
      · exact fun zero => absurd zero (Nat.succ_ne_zero _)
      · exact ⟨(cpu.locked deep).1, (cpu.locked deep).2.trans off⟩
    · exact sound.locks.congr (update_same _ _ _ Env.held held.symm) (update_same _ _ _ Env.bare bare.symm)
    · refine ⟨fun {q c₁ c₂} first second => ?_, fun {q c'} current => ?_, fun {c'} idle => ?_,
        fun {q c'} current leaving => ?_, fun {q c'} current => ?_, fun {q} none => ?_, fun {q} none => ?_⟩
      · rcases process first with ⟨same, this⟩ | ⟨_, other, before⟩ <;>
          rcases process second with ⟨same', this'⟩ | ⟨_, other', before'⟩
        · exact same.trans same'.symm
        · exact absurd this other'
        · exact absurd this' other
        · exact sound.procs.once before before'
      · rcases process current with ⟨rfl, rfl⟩ | ⟨other, different, before⟩
        · rw [Function.update_self, picked]
          rfl
        · rw [Function.update_of_ne other, others different]
          exact sound.procs.own before
      · have other : c' ≠ c := fun same => by rw [same, here] at idle; cases idle
        rw [elsewhere other] at idle
        rw [Function.update_of_ne other]
        exact sound.procs.idle idle
      · rcases process current with ⟨rfl, rfl⟩ | ⟨other, -, before⟩
        · rw [Function.update_self]
          exact List.mem_singleton_self _
        · rw [Function.update_of_ne other] at leaving ⊢
          exact sound.procs.leaves before leaving
      · rcases process current with ⟨rfl, rfl⟩ | ⟨other, -, before⟩
        · rw [here]
          exact .scan_next ⟨rfl, rfl, rfl, rfl⟩ rfl rfl rfl
        · rw [elsewhere other]
          exact sound.procs.saved before
      · obtain ⟨different, before⟩ := offCpu none
        rw [others different]
        exact sound.procs.out before
      · obtain ⟨different, before⟩ := offCpu none
        rw [others different]
        exact sound.procs.context before
    · exact sound.sleepers.switch steady.going rfl held.symm rfl steady.dirty.symm nofun
    · refine ⟨sound.sleeplocks.locked, sound.sleeplocks.alone, fun {q c' s} current drops => ?_⟩
      rcases process current with ⟨rfl, rfl⟩ | ⟨other, -, before⟩
      · rw [Function.update_self] at drops
        exact holds s drops
      · rw [Function.update_of_ne other] at drops
        exact sound.sleeplocks.drop before drops
  · rw [if_neg runnable]
    have next : Ok (k.cpu c).proc ([.release (.proc p), .scan (p + 1) found] ++ []) (envs c) := by
      rw [idle]
      exact .scan_next steady bare held off
    refine ⟨_, _, rfl, sound.alone (envs c)
      ⟨next, cpu.noff, cpu.free, fun deep => ⟨(cpu.locked deep).1, off.symm⟩⟩
      rfl rfl rfl rfl rfl rfl rfl (fun _ _ => le_rfl) (fun _ => rfl)⟩

/-- A process that is not running any more switches to the scheduler of its CPU. -/
theorem swtch (at_ : (k.cpu c).code = .swtch :: rest) : Goes k c rest .swtch := by
  have ok := sound.ok at_
  obtain ⟨p, process, parting⟩ := ok.needs
  have bare := ok.bare (by simp) (by simp)
  have cpu := sound.cpus c
  have depth : (envs c).depth = 1 := by rw [Env.depth, parting.held, parting.extra]; rfl
  have deep : (envs c).depth ≠ 0 := by omega
  have state := sound.procs.own process
  have leaving : (k.proc p).state ≠ .running := state ▸ parting.own
  have noff : (k.cpu c).noff = 1 := cpu.noff.trans depth
  obtain ⟨off, intena⟩ := cpu.locked deep
  -- The thread goes on where it was.
  have context (live : (envs c).own ≠ .zombie) :
      Ok (some p) (.setIntena (k.cpu c).intena :: rest) (parked p (envs c).drop) := by
    have next : Instr.Continues (envs c) rest (Ok (k.cpu c).proc rest) .swtch := ok.2.2
    simp only [Instr.Continues, if_neg live] at next
    rw [process] at next
    refine ⟨.plain rfl rfl, List.cons_ne_nil _ _, next.congr ?_⟩
    have held := parting.held
    have extra := parting.extra
    have going := parting.going
    have dirty := parting.dirty
    generalize envs c = e at *
    obtain ⟨held', extra', bare', own, on, going', awake, dirty', drop⟩ := e
    cases held
    cases extra
    cases bare
    cases going
    cases dirty
    cases intena
    rfl
  unfold Goes
  rw [Kernel.exec]
  simp only [process]
  rw [if_neg (not_not.mpr noff), if_neg leaving, if_neg (by rw [off]; decide)]
  let cpu' : Cpu := { k.cpu c with proc := none, intena := false, code := (k.cpu c).scheduler }
  let new : Proc := { k.proc p with context := .setIntena (k.cpu c).intena :: rest }
  let k' := (k.setProc p new).setCpu c cpu'
  have elsewhere {c' : Fin NCPU} (other : c' ≠ c) : k'.cpu c' = k.cpu c' := Function.update_of_ne other ..
  have here : k'.cpu c = cpu' := Function.update_self ..
  have left : k'.proc p = new := Function.update_self ..
  have others {q} (other : q ≠ p) : k'.proc q = k.proc q := Function.update_of_ne other ..
  -- The other CPUs have the processes they had.
  have before {q c'} (current : (k'.cpu c').proc = some q) : c' ≠ c ∧ q ≠ p ∧ (k.cpu c').proc = some q := by
    by_cases this : c' = c
    · rw [this, here] at current
      cases current
    · rw [elsewhere this] at current
      exact ⟨this, fun same => this (sound.procs.once (same ▸ current) process), current⟩
  have offCpu {q} (different : q ≠ p) (none : ∀ c, (k'.cpu c).proc ≠ some q) (c') : (k.cpu c').proc ≠ some q := by
    intro current
    by_cases this : c' = c
    · rw [this, process] at current
      exact different (Option.some.inj current).symm
    · exact none c' (by rw [elsewhere this, current])
  refine ⟨k', Function.update envs c (parked p none), rfl, ?_, ?_, ?_, ?_, ?_⟩
  · refine cpus_update (k := k.setProc p new) sound.cpus ⟨sound.procs.saved process, noff, ?_, fun _ => ⟨off, rfl⟩⟩
    exact fun zero => absurd zero (Nat.succ_ne_zero _)
  · exact sound.locks.congr (update_same _ _ _ Env.held parting.held.symm) (update_same _ _ _ Env.bare bare.symm)
  · refine ⟨fun first second => ?_, fun {q c'} current => ?_, fun {c'} idle => ?_, fun {q c'} current leaving => ?_,
      fun {q c'} current => ?_, fun {q} none => ?_, fun {q} none live => ?_⟩
    · exact sound.procs.once (before first).2.2 (before second).2.2
    · obtain ⟨other, different, current⟩ := before current
      rw [Function.update_of_ne other, others different]
      exact sound.procs.own current
    · by_cases this : c' = c
      · rw [this, Function.update_self]
        rfl
      · rw [elsewhere this] at idle
        rw [Function.update_of_ne this]
        exact sound.procs.idle idle
    · obtain ⟨other, -, current⟩ := before current
      rw [Function.update_of_ne other] at leaving ⊢
      exact sound.procs.leaves current leaving
    · obtain ⟨other, -, current⟩ := before current
      rw [elsewhere other]
      exact sound.procs.saved current
    · by_cases this : q = p
      · rw [this, left]
        exact leaving
      · rw [others this]
        exact sound.procs.out (offCpu this none)
    · by_cases this : q = p
      · rw [this, left] at live ⊢
        refine ⟨(envs c).drop, fun s drops => sound.sleeplocks.drop process drops, context fun zombie => ?_⟩
        have now : (k.proc p).state = .zombie := state.trans zombie
        change (k.proc p).state = _ ∨ (k.proc p).state = _ at live
        rw [now] at live
        exact live.elim (by decide) (by decide)
      · rw [others this] at live ⊢
        exact sound.procs.context (offCpu this none) live
  · exact sound.sleepers.switch parting.going rfl parting.held.symm rfl parting.dirty.symm
      fun sleeping => ⟨sleeping, rfl, rfl⟩
  · refine ⟨sound.sleeplocks.locked, sound.sleeplocks.alone, fun {q c' s} current drops => ?_⟩
    obtain ⟨other, -, current⟩ := before current
    rw [Function.update_of_ne other] at drops
    exact sound.sleeplocks.drop current drops

/-- `mycpu()->intena = intena` behind the switch back, maybe on another CPU. -/
theorem setIntena {intena : Bool} (at_ : (k.cpu c).code = .setIntena intena :: rest) :
    Goes k c rest (.setIntena intena) := by
  have ok := sound.ok at_
  have some : (envs c).held ≠ [] := ok.needs
  have cpu := sound.cpus c
  have deep : (envs c).depth ≠ 0 := by
    have positive := List.length_pos_of_ne_nil some
    rw [Env.depth]
    omega
  exact ⟨_, _, rfl, sound.alone { envs c with on := intena }
    ⟨ok.2.2, cpu.noff, fun none => absurd none deep, fun _ => ⟨(cpu.locked deep).1, rfl⟩⟩
    rfl rfl rfl rfl rfl rfl rfl (fun _ _ => le_rfl) (fun _ => rfl)⟩

/-! ## Processes -/

/-- The process on a CPU changes, under its lock. -/
theorem changes (e' : Env) {new : Proc} (process : (k.cpu c).proc = some p) (member : .proc p ∈ (envs c).held)
    (ok : Ok (k.cpu c).proc rest e') (form : e' = { envs c with own := e'.own }) (state : new.state = e'.own)
    (awake : new.state ≠ .sleeping) : Sound ((k.setProc p new).goto c rest) (Function.update envs c e') := by
  have cpu := sound.cpus c
  have sameProc := setCpu_same k c { k.cpu c with code := rest } Cpu.proc rfl
  have same {α : Type} (f : Env → α) (this : ∀ own, f { envs c with own := own } = f (envs c)) (c' : Fin NCPU) :
      f (Function.update envs c e' c') = f (envs c') := by
    refine update_same _ _ _ f ?_ c'
    rw [form]
    exact this _
  have depth : e'.depth = (envs c).depth := by rw [form]; rfl
  have on : e'.on = (envs c).on := by rw [form]
  refine ⟨?_, ?_, ?_, ?_, ?_⟩
  · refine cpus_update (k := k.setProc p new) sound.cpus ⟨ok, depth ▸ cpu.noff, ?_, ?_⟩
    · rw [depth, on]
      exact cpu.free
    · rw [depth, on]
      exact cpu.locked
  · exact sound.locks.congr (same Env.held fun _ => rfl) (same Env.bare fun _ => rfl)
  · exact sound.procs.onCpu sameProc (setCpu_same _ _ _ Cpu.scheduler rfl) rfl rfl process state (by rw [form]) member
  · refine sound.sleepers.awoken sameProc rfl awake rfl (same Env.going fun _ => rfl) (same Env.held fun _ => rfl)
      (same Env.dirty fun _ => rfl) fun _ below => .inl ?_
    rwa [same Env.awake fun _ => rfl] at below
  · exact sound.sleeplocks.congr sameProc rfl rfl (same Env.drop fun _ => rfl)

/-- `p->state = RUNNABLE` or `ZOMBIE`, under the lock of the process. -/
theorem setState {state : ProcTable.ProcState} (at_ : (k.cpu c).code = .setState state :: rest) :
    Goes k c rest (.setState state) := by
  have ok := sound.ok at_
  obtain ⟨-, -, kind, p, process, member⟩ := ok.needs
  unfold Goes
  rw [Kernel.exec]
  simp only [process]
  refine ⟨_, _, rfl, sound.changes { envs c with own := state } process member ok.2.2 rfl rfl ?_⟩
  rcases kind with rfl | rfl <;> nofun

/-- `p->chan = 0` behind a sleep. -/
theorem clearChan (at_ : (k.cpu c).code = .clearChan :: rest) : Goes k c rest .clearChan := by
  have ok := sound.ok at_
  obtain ⟨own, p, process, member⟩ := ok.needs
  have state := sound.procs.own process
  unfold Goes
  rw [Kernel.exec]
  simp only [process]
  refine ⟨_, _, rfl, sound.changes (envs c) process member ok.2.2 rfl state ?_⟩
  change (k.proc p).state ≠ .sleeping
  rw [state, own]
  nofun

/-- `p->state = SLEEPING`: from here on the process waits on the channel. -/
theorem fallAsleep (at_ : (k.cpu c).code = .fallAsleep chan lk :: rest) : Goes k c rest (.fallAsleep chan lk) := by
  have ok := sound.ok at_
  obtain ⟨own, going, inner, unknown, p, process, member⟩ := ok.needs
  have cpu := sound.cpus c
  unfold Goes
  rw [Kernel.exec]
  simp only [process]
  let new : Proc := { k.proc p with chan := some chan, state := .sleeping, given := some lk }
  let e' : Env := { envs c with own := .sleeping, going := none }
  let k' := (k.setProc p new).goto c rest
  have sameProc := setCpu_same k c { k.cpu c with code := rest } Cpu.proc rfl
  have sameHeld := update_same envs c e' Env.held rfl
  have sleeper : k'.proc p = new := Function.update_self ..
  have others {q} (other : q ≠ p) : k'.proc q = k.proc q := Function.update_of_ne other ..
  have still {c' x} (some : (Function.update envs c e' c').going = some x) :
      c' ≠ c ∧ (envs c').going = Option.some x := by
    by_cases here : c' = c
    · rw [here, Function.update_self] at some
      cases some
    · rw [Function.update_of_ne here] at some
      exact ⟨here, some⟩
  -- The process waits now. It did before if it had given up another lock.
  have waits {q ch l} (waiting : Waits k' (Function.update envs c e') q ch l) :
      Waits k envs q ch l ∨ q = p ∧ ch = chan ∧ l = lk ∧ lk ∈ (envs c).held := by
    rcases waiting with ⟨state, on, given⟩ | ⟨c', current, some, notHeld⟩
    · by_cases this : q = p
      · rw [this, sleeper] at on given
        cases on
        cases given
        by_cases held : lk ∈ (envs c).held
        · exact .inr ⟨this, rfl, rfl, held⟩
        · exact .inl (.inr ⟨c, this ▸ process, going, held⟩)
      · rw [others this] at state on given
        exact .inl (.inl ⟨state, on, given⟩)
    · rw [sameHeld] at notHeld
      exact .inl (.inr ⟨c', (sameProc c').symm.trans current, (still some).2, notHeld⟩)
  refine ⟨k', Function.update envs c e', rfl, ?_, ?_, ?_, ?_, ?_⟩
  · exact cpus_update (k := k.setProc p new) sound.cpus ⟨ok.2.2, cpu.noff, cpu.free, cpu.locked⟩
  · exact sound.locks.congr sameHeld (update_same _ _ _ Env.bare rfl)
  · exact sound.procs.onCpu sameProc (setCpu_same _ _ _ Cpu.scheduler rfl) rfl rfl process rfl rfl member
  · refine ⟨fun {c' ch l q} inside below waiting => ?_, fun {q c' ch l} current some notHeld => ?_,
      fun {c' s} some inside => ?_, fun {q s} waiting => ?_, fun {q s} state on => ?_⟩
    · rw [sameHeld] at inside
      rw [update_same envs c e' Env.awake rfl] at below
      rcases waits waiting with before | ⟨-, -, rfl, held⟩
      · exact sound.sleepers.awake inside below before
      · cases sound.locks.alone inside held
        rw [unknown] at below
        exact absurd below (Nat.not_lt_zero _)
    · rw [sameHeld] at notHeld ⊢
      exact sound.sleepers.gives ((sameProc c').symm.trans current) (still some).2 notHeld
    · rw [sameHeld] at inside
      exact sound.sleepers.going (still some).2 inside
    · rcases waits waiting with before | ⟨-, rfl, rfl, held⟩
      · refine (sound.sleepers.waits before).imp id ?_
        rintro ⟨c', inside, dirty⟩
        refine ⟨c', by rwa [sameHeld], ?_⟩
        rwa [update_same envs c e' Env.dirty rfl]
      · exact .inl (sound.sleepers.going going held)
    · by_cases this : q = p
      · rw [this, sleeper] at on ⊢
        cases on
        exact congrArg Option.some (inner s rfl)
      · rw [others this] at state on ⊢
        exact sound.sleepers.given state on
  · exact sound.sleeplocks.congr sameProc rfl rfl (update_same _ _ _ Env.drop rfl)

/-- The call of `sleep` begins. -/
theorem goes_to_sleep (process : (k.cpu c).proc = some p) (held : (envs c).held = [lk])
    (ok : Ok (k.cpu c).proc code { envs c with going := some (chan, lk), awake := fun _ _ => 0 })
    (taken : ∀ s, chan = .sleep s → (k.sleeplock s).locked = true) :
    Sound (k.goto c code) (Function.update envs c { envs c with going := some (chan, lk), awake := fun _ _ => 0 }) := by
  have cpu := sound.cpus c
  let e' : Env := { envs c with going := some (chan, lk), awake := fun _ _ => 0 }
  have member : lk ∈ (envs c).held := by rw [held]; exact List.mem_singleton_self _
  have sameProc := setCpu_same k c { k.cpu c with code := code } Cpu.proc rfl
  have sameHeld := update_same envs c e' Env.held rfl
  have still {c' x} (some : (Function.update envs c e' c').going = some x) :
      c' = c ∧ x = (chan, lk) ∨ c' ≠ c ∧ (envs c').going = Option.some x := by
    by_cases here : c' = c
    · rw [here, Function.update_self] at some
      exact .inl ⟨here, (Option.some.inj some).symm⟩
    · rw [Function.update_of_ne here] at some
      exact .inr ⟨here, some⟩
  have waits {q ch l} (waiting : Waits (k.goto c code) (Function.update envs c e') q ch l) : Waits k envs q ch l := by
    rcases waiting with sleeping | ⟨c', current, some, notHeld⟩
    · exact .inl sleeping
    · rw [sameHeld] at notHeld
      rcases still some with ⟨rfl, same⟩ | ⟨-, before⟩
      · cases same
        exact absurd member notHeld
      · exact .inr ⟨c', (sameProc c').symm.trans current, before, notHeld⟩
  refine ⟨?_, ?_, ?_, ?_, ?_⟩
  · exact cpus_update sound.cpus ⟨ok, cpu.noff, cpu.free, cpu.locked⟩
  · exact sound.locks.congr sameHeld (update_same _ _ _ Env.bare rfl)
  · exact sound.procs.congr sameProc (setCpu_same _ _ _ Cpu.scheduler rfl) rfl (update_same _ _ _ Env.own rfl)
      (fun _ has => has) fun current leaving => by rw [sameHeld]; exact sound.procs.leaves current leaving
  · refine ⟨fun {c' ch l q} inside below waiting => ?_, fun {q c' ch l} current some notHeld => ?_,
      fun {c' s} some inside => ?_, fun {q s} waiting => ?_, sound.sleepers.given⟩
    · by_cases here : c' = c
      · subst here
        rw [Function.update_self] at below
        exact absurd below (Nat.not_lt_zero _)
      · rw [Function.update_of_ne here] at inside below
        exact sound.sleepers.awake inside below (waits waiting)
    · rw [sameHeld] at notHeld ⊢
      rcases still some with ⟨rfl, same⟩ | ⟨-, before⟩
      · cases same
        exact absurd member notHeld
      · exact sound.sleepers.gives ((sameProc c').symm.trans current) before notHeld
    · rw [sameHeld] at inside
      rcases still some with ⟨rfl, same⟩ | ⟨-, before⟩
      · cases same
        exact taken s rfl
      · exact sound.sleepers.going before inside
    · refine (sound.sleepers.waits (waits waiting)).imp id ?_
      rintro ⟨c', inside, dirty⟩
      refine ⟨c', by rwa [sameHeld], ?_⟩
      rwa [update_same envs c e' Env.dirty rfl]
  · exact sound.sleeplocks.congr sameProc rfl rfl (update_same _ _ _ Env.drop rfl)

theorem sleep (at_ : (k.cpu c).code = .sleep chan lk :: rest) : Goes k c rest (.sleep chan lk) := by
  have ok := sound.ok at_
  obtain ⟨process, held, -, outer⟩ := ok.needs
  obtain ⟨p, process⟩ := Option.ne_none_iff_exists'.mp process
  unfold Goes
  rw [Kernel.exec]
  simp only [process]
  exact ⟨_, _, rfl, sound.goes_to_sleep process held (ok.sleep process) fun s same => absurd same (outer s)⟩

/-! ## Waking up -/

/-- `wakeup` tests the next process, or has tested all. -/
theorem wakeup {i : Nat} (at_ : (k.cpu c).code = .wakeup chan i :: rest) : Goes k c rest (.wakeup chan i) := by
  have ok := sound.ok at_
  obtain ⟨-, -, before, -⟩ := ok.needs
  have cpu := sound.cpus c
  unfold Goes
  rw [Kernel.exec]
  by_cases more : i < NPROC
  · rw [dif_pos more]
    exact ⟨_, envs, rfl, sound.goto (ok.wakeup more)⟩
  rw [dif_neg more]
  -- All processes have been tested.
  have awake {lk : Lock} (member : lk ∈ (envs c).held) (p : Fin NPROC) : ¬ Waits k envs p chan lk :=
    sound.sleepers.awake member (p.isLt.trans_le ((not_lt.mp more).trans (before lk member)))
  refine ⟨_, _, rfl, sound.learns ((envs c).woken chan) ⟨ok.2.2, cpu.noff, cpu.free, cpu.locked⟩ rfl rfl rfl rfl
    rfl rfl sound.sleeplocks.drop (fun {ch lk p} member below => ?_) fun {s p} member dirty => ?_⟩
  · refine (Env.woken_known below).imp id ?_
    rintro ⟨rfl, -⟩
    exact awake member p
  · by_cases this : chan = .sleep s
    · exact .inr (this ▸ awake member p)
    · exact .inl ((if_neg this).trans dirty)

/-- A process that sleeps is made runnable, under its lock. -/
theorem rouses {new : Proc} (member : .proc p ∈ (envs c).held) (own : (envs c).own = .running)
    (asleep : (k.proc p).state = .sleeping) (runnable : new.state = .runnable)
    (context : new.context = (k.proc p).context)
    (ok : Ok (k.cpu c).proc rest e') (form : e' = { envs c with awake := e'.awake })
    (known : ∀ {chan lk} {q : Fin NPROC}, lk ∈ (envs c).held → q < e'.awake chan lk →
      q < (envs c).awake chan lk ∨ q = p) :
    Sound ((k.setProc p new).goto c rest) (Function.update envs c e') := by
  have cpu := sound.cpus c
  have off := sound.off member own (by rw [asleep]; nofun)
  have sameProc := setCpu_same k c { k.cpu c with code := rest } Cpu.proc rfl
  have same {α : Type} (f : Env → α) (this : ∀ awake, f { envs c with awake := awake } = f (envs c)) (c' : Fin NCPU) :
      f (Function.update envs c e' c') = f (envs c') := by
    refine update_same _ _ _ f ?_ c'
    rw [form]
    exact this _
  have depth : e'.depth = (envs c).depth := by rw [form]; rfl
  have on : e'.on = (envs c).on := by rw [form]
  have awake : new.state ≠ .sleeping := by
    rw [runnable]
    nofun
  refine ⟨?_, ?_, ?_, ?_, ?_⟩
  · refine cpus_update (k := k.setProc p new) sound.cpus ⟨ok, depth ▸ cpu.noff, ?_, ?_⟩
    · rw [depth, on]
      exact cpu.free
    · rw [depth, on]
      exact cpu.locked
  · exact sound.locks.congr (same Env.held fun _ => rfl) (same Env.bare fun _ => rfl)
  · refine sound.procs.offCpu sameProc (setCpu_same _ _ _ Cpu.scheduler rfl) rfl rfl off (by rw [runnable]; nofun)
      (fun _ => ?_)
      (same Env.own fun _ => rfl) (same Env.held fun _ => rfl)
    rw [context]
    exact sound.procs.context off (.inr asleep)
  · refine sound.sleepers.awoken sameProc rfl awake rfl (same Env.going fun _ => rfl) (same Env.held fun _ => rfl)
      (same Env.dirty fun _ => rfl) fun {c' chan lk q} inside below => ?_
    by_cases here : c' = c
    · subst here
      rw [Function.update_self] at below
      refine (known inside below).imp id ?_
      rintro rfl waiting
      rcases waiting with ⟨state, -, -⟩ | ⟨c'', current, -, -⟩
      · exact awake ((congrArg Proc.state (Function.update_self (f := k.proc) ..)).symm.trans state)
      · exact off c'' ((sameProc c'').symm.trans current)
    · rw [Function.update_of_ne here] at below
      exact .inl below
  · exact sound.sleeplocks.congr sameProc rfl rfl (same Env.drop fun _ => rfl)

/-- One process is tested, and woken up if it sleeps on the channel. -/
theorem wake (at_ : (k.cpu c).code = .wake chan p :: rest) : Goes k c rest (.wake chan p) := by
  have ok := sound.ok at_
  obtain ⟨member, own⟩ := ok.needs
  have cpu := sound.cpus c
  unfold Goes
  rw [Kernel.exec]
  by_cases hit : (k.proc p).state = .sleeping ∧ (k.proc p).chan = some chan
  · rw [if_pos hit]
    exact ⟨_, _, rfl, sound.rouses member own hit.1 rfl rfl ok.2.2 rfl fun _ below =>
      (Env.wokenOne_known below).imp id And.left⟩
  · rw [if_neg hit]
    refine ⟨_, _, rfl, sound.learns ((envs c).wokenOne chan p) ⟨ok.2.2, cpu.noff, cpu.free, cpu.locked⟩ rfl rfl
      rfl rfl rfl rfl sound.sleeplocks.drop (fun {ch lk q} inside below => (Env.wokenOne_known below).imp id ?_)
      fun _ dirty => .inl dirty⟩
    rintro ⟨rfl, rfl⟩ waiting
    rcases waiting with ⟨state, on, -⟩ | ⟨c', current, some, notHeld⟩
    · exact hit ⟨state, on⟩
    · -- The process has its own lock, so that it is the one on this CPU, which has the other lock too.
      cases sound.locks.alone member (sound.sleepers.gives current some notHeld)
      exact notHeld inside

/-- `kill` wakes its process up. -/
theorem rouse (at_ : (k.cpu c).code = .rouse p :: rest) : Goes k c rest (.rouse p) := by
  have ok := sound.ok at_
  obtain ⟨member, own⟩ := ok.needs
  unfold Goes
  rw [Kernel.exec]
  by_cases asleep : (k.proc p).state = .sleeping
  · rw [if_pos asleep]
    exact ⟨_, _, rfl, sound.rouses member own asleep rfl rfl ok.2.2 rfl fun _ below => .inl below⟩
  · rw [if_neg asleep]
    exact ⟨_, envs, rfl, sound.goto ok.2.2⟩

/-! ## Sleep locks -/

/-- The loop of `acquiresleep`: the lock is taken, or the process sleeps. -/
theorem takeSleep (at_ : (k.cpu c).code = .takeSleep s :: rest) : Goes k c rest (.takeSleep s) := by
  have ok := sound.ok at_
  obtain ⟨process, held, steady⟩ := ok.needs
  obtain ⟨p, process⟩ := Option.ne_none_iff_exists'.mp process
  have cpu := sound.cpus c
  unfold Goes
  rw [Kernel.exec]
  simp only [process]
  by_cases locked : (k.sleeplock s).locked = true
  · rw [if_pos locked]
    refine ⟨_, _, rfl, sound.goes_to_sleep process held (ok.takeSleep process) fun t same => ?_⟩
    cases same
    exact locked
  rw [if_neg locked]
  have free (q : Fin NPROC) : ¬ k.holds q s = true := fun has => locked ((sound.sleeplocks.locked s).mpr ⟨q, has⟩)
  let k₁ := (k.setSleeplock s ⟨true, (k.proc p).pid⟩).setHolds p s true
  let e' := (envs c).switched
  have sameProc := setCpu_same k c { k.cpu c with code := rest } Cpu.proc rfl
  have sameHeld := update_same envs c e' Env.held rfl
  have sameOwn := update_same envs c e' Env.own steady.own.symm
  have has {q t} (has : k.holds q t = true) : k₁.holds q t = true := by
    by_cases this : q = p ∧ t = s
    · rw [this.1, this.2]
      exact setHolds_self ..
    · exact (setHolds_ne (not_and_or.mp this)).trans has
  have had {q t} (has : k₁.holds q t = true) : k.holds q t = true ∨ q = p ∧ t = s := by
    by_cases this : q = p ∧ t = s
    · exact .inr this
    · exact .inl ((setHolds_ne (not_and_or.mp this)).symm.trans has)
  have taken {t} : ((k.setSleeplock s ⟨true, (k.proc p).pid⟩).sleeplock t).locked = true ↔
      t = s ∨ (k.sleeplock t).locked = true := by
    by_cases this : t = s
    · subst this
      rw [setSleeplock_self]
      exact iff_of_true rfl (.inl rfl)
    · rw [or_iff_right this, setSleeplock_ne this]
  refine ⟨k₁.goto c rest, Function.update envs c e', rfl, ?_, ?_, ?_, ?_, ?_⟩
  · refine cpus_update (k := k₁) sound.cpus ⟨?_, cpu.noff, cpu.free, cpu.locked⟩
    exact ok.2.2
  · exact sound.locks.congr sameHeld (update_same _ _ _ Env.bare rfl)
  · exact sound.procs.congr sameProc (setCpu_same _ _ _ Cpu.scheduler rfl) rfl sameOwn (fun _ had => has had)
      fun current leaving => by rw [sameHeld]; exact sound.procs.leaves current leaving
  · refine sound.sleepers.congr sameProc rfl (fun locked => taken.mpr (.inr locked))
      (update_same _ _ _ Env.going rfl) sameHeld
      (fun {c' chan lk q} _ below => ?_) fun {c' t q} _ dirty => .inl ?_
    · by_cases here : c' = c
      · subst here
        rw [Function.update_self] at below
        exact absurd below (Nat.not_lt_zero _)
      · rw [Function.update_of_ne here] at below
        exact .inl below
    · rwa [update_same envs c e' Env.dirty rfl]
  · refine ⟨fun t => ?_, fun {q q' t} first second => ?_, fun {q c' t} current drops => ?_⟩
    · refine taken.trans ?_
      rw [sound.sleeplocks.locked]
      constructor
      · rintro (rfl | ⟨q, held⟩)
        · exact ⟨p, setHolds_self ..⟩
        · exact ⟨q, has held⟩
      · rintro ⟨q, held⟩
        rcases had held with before | ⟨-, this⟩
        · exact .inr ⟨q, before⟩
        · exact .inl this
    · rcases had first with before | ⟨this, same⟩ <;> rcases had second with before' | ⟨this', same'⟩
      · exact sound.sleeplocks.alone before before'
      · subst same'
        exact absurd before (free q)
      · subst same
        exact absurd before' (free q')
      · exact this.trans this'.symm
    · rw [update_same envs c e' Env.drop rfl] at drops
      exact has (sound.sleeplocks.drop ((sameProc c').symm.trans current) drops)

/-- `lk->locked = 0` of a sleep lock, whose sleepers are to be woken up. -/
theorem dropSleep (at_ : (k.cpu c).code = .dropSleep s :: rest) : Goes k c rest (.dropSleep s) := by
  have ok := sound.ok at_
  obtain ⟨process, member, quiet, drop⟩ := ok.needs
  obtain ⟨p, process⟩ := Option.ne_none_iff_exists'.mp process
  have cpu := sound.cpus c
  have has := sound.sleeplocks.drop process drop
  unfold Goes
  rw [Kernel.exec]
  simp only [process]
  let k₁ := (k.setSleeplock s ⟨false, 0⟩).setHolds p s false
  let e' := (envs c).dropped s
  have sameProc := setCpu_same k c { k.cpu c with code := rest } Cpu.proc rfl
  have sameHeld := update_same envs c e' Env.held rfl
  have sameGoing := update_same envs c e' Env.going rfl
  have holds {q t} : k₁.holds q t = true ↔ t ≠ s ∧ k.holds q t = true := by
    by_cases this : t = s
    · subst this
      refine iff_of_false (fun held => ?_) fun held => held.1 rfl
      by_cases same : q = p
      · rw [same] at held
        exact absurd ((setHolds_self ..).symm.trans held) nofun
      · exact same (sound.sleeplocks.alone ((setHolds_ne (.inl same)).symm.trans held) has)
    · rw [and_iff_right this]
      exact iff_of_eq (congrArg (· = true) (setHolds_ne (.inr this)))
  have locked {t} :
      ((k.setSleeplock s ⟨false, 0⟩).sleeplock t).locked = true ↔ t ≠ s ∧ (k.sleeplock t).locked = true := by
    by_cases this : t = s
    · subst this
      rw [setSleeplock_self]
      exact iff_of_false nofun fun held => held.1 rfl
    · rw [and_iff_right this, setSleeplock_ne this]
  have waits {q chan lk} : Waits (k₁.goto c rest) (Function.update envs c e') q chan lk ↔ Waits k envs q chan lk :=
    waits_congr sameProc rfl sameGoing sameHeld
  have dirty {c' t} (dirty : (envs c').dirty t = true) : (Function.update envs c e' c').dirty t = true := by
    by_cases here : c' = c
    · subst here
      rw [Function.update_self]
      by_cases this : t = s
      · exact if_pos this
      · exact (if_neg this).trans dirty
    · rwa [Function.update_of_ne here]
  refine ⟨k₁.goto c rest, Function.update envs c e', rfl, ?_, ?_, ?_, ?_, ?_⟩
  · refine cpus_update (k := k₁) sound.cpus ⟨?_, cpu.noff, cpu.free, cpu.locked⟩
    exact ok.2.2
  · exact sound.locks.congr sameHeld (update_same _ _ _ Env.bare rfl)
  · refine sound.procs.congr sameProc (setCpu_same _ _ _ Cpu.scheduler rfl) rfl (update_same _ _ _ Env.own rfl)
      (fun {q t} off had => ?_)
      fun current leaving => by rw [sameHeld]; exact sound.procs.leaves current leaving
    have other : q ≠ p := fun same => off c (by rw [same]; exact process)
    exact (setHolds_ne (.inl other)).trans had
  · refine ⟨fun {c' chan lk q} inside below => ?_, fun {q c' chan lk} current some notHeld => ?_,
      fun {c' t} some inside => ?_, fun {q t} waiting => ?_, sound.sleepers.given⟩
    · rw [sameHeld] at inside
      rw [update_same envs c e' Env.awake rfl] at below
      rw [waits]
      exact sound.sleepers.awake inside below
    · rw [sameGoing] at some
      rw [sameHeld] at notHeld ⊢
      exact sound.sleepers.gives ((sameProc c').symm.trans current) some notHeld
    · rw [sameGoing] at some
      rw [sameHeld] at inside
      refine locked.mpr ⟨?_, sound.sleepers.going some inside⟩
      rintro rfl
      cases sound.locks.alone inside member
      rw [quiet] at some
      cases some
    · by_cases this : t = s
      · subst this
        refine .inr ⟨c, by rwa [sameHeld], ?_⟩
        rw [Function.update_self]
        exact if_pos rfl
      · refine (sound.sleepers.waits (waits.mp waiting)).imp (fun held => locked.mpr ⟨this, held⟩) ?_
        rintro ⟨c', inside, isDirty⟩
        exact ⟨c', by rwa [sameHeld], dirty isDirty⟩
  · refine ⟨fun t => ?_, fun first second => ?_, fun {q c' t} current drops => ?_⟩
    · refine locked.trans ?_
      rw [sound.sleeplocks.locked]
      exact ⟨fun ⟨this, q, held⟩ => ⟨q, holds.mpr ⟨this, held⟩⟩,
        fun ⟨q, held⟩ => ⟨(holds.mp held).1, q, (holds.mp held).2⟩⟩
    · exact sound.sleeplocks.alone (holds.mp first).2 (holds.mp second).2
    · have current' := (sameProc c').symm.trans current
      by_cases here : c' = c
      · subst here
        rw [Function.update_self] at drops
        cases drops
      · rw [Function.update_of_ne here] at drops
        have held := sound.sleeplocks.drop current' drops
        refine holds.mpr ⟨?_, held⟩
        rintro rfl
        have same := sound.sleeplocks.alone held has
        subst same
        exact here (sound.procs.once current' process)

/-! ## One step of one thread -/

/-- What a CPU has left to do is never nothing, and its next step returns and keeps the invariant. -/
theorem exec (c : Fin NCPU) : ∃ k' envs', k.run (.step c) = .ok k' ∧ Sound k' envs' := by
  rw [Kernel.run]
  cases at_ : (k.cpu c).code with
  | nil => exact ⟨k, envs, rfl, sound⟩
  | cons i rest =>
      have ok := sound.ok at_
      change Goes k c rest i
      cases i with
      | acquire lk => exact ⟨_, envs, rfl, sound.goto ok.acquire⟩
      | pushOff => exact sound.pushOff at_
      | holding lk expected message => exact sound.holding at_
      | holdingCpu lk expected message => exact sound.holdingCpu at_
      | testAndSet lk => exact sound.testAndSet at_
      | setCpu lk => exact sound.setCpu at_
      | release lk => exact ⟨_, envs, rfl, sound.goto ok.release⟩
      | clearCpu lk => exact sound.clearCpu at_
      | lockRelease lk => exact sound.lockRelease at_
      | popOff => exact sound.popOff at_
      | scheduler => exact ⟨_, envs, rfl, sound.goto ok.scheduler⟩
      | intrOn => exact sound.intrOn at_
      | intrOff => exact sound.intrOff at_
      | scan i found => exact sound.scan at_
      | pick p found => exact sound.pick at_
      | yield =>
          obtain ⟨p, process⟩ := Option.ne_none_iff_exists'.mp ok.needs.1
          unfold Goes
          rw [Kernel.exec]
          simp only [process]
          exact ⟨_, envs, rfl, sound.goto (ok.yield process)⟩
      | setState state => exact sound.setState at_
      | sched =>
          obtain ⟨p, process, -⟩ := ok.needs
          unfold Goes
          rw [Kernel.exec]
          simp only [process]
          exact ⟨_, envs, rfl, sound.goto (ok.sched process)⟩
      | swtch => exact sound.swtch at_
      | setIntena intena => exact sound.setIntena at_
      | sleep chan lk => exact sound.sleep at_
      | fallAsleep chan lk => exact sound.fallAsleep at_
      | clearChan => exact sound.clearChan at_
      | wakeup chan i => exact sound.wakeup at_
      | wake chan p => exact sound.wake at_
      | wakeup1 p => exact ⟨_, envs, rfl, sound.goto ok.wakeup1⟩
      | rouse p => exact sound.rouse at_
      | exit parent =>
          obtain ⟨-, -, p, process, -⟩ := ok.needs
          exact ⟨_, envs, rfl, sound.goto (ok.exit process)⟩
      | panic message => exact ok.needs.elim
      | acquiresleep s => exact ⟨_, envs, rfl, sound.goto ok.acquiresleep⟩
      | takeSleep s => exact sound.takeSleep at_
      | releasesleep s => exact ⟨_, envs, rfl, sound.goto ok.releasesleep⟩
      | dropSleep s => exact sound.dropSleep at_
      | client on => exact ⟨k, envs, rfl, sound⟩
      | handler on => exact ⟨k, envs, rfl, sound⟩

end Sound

end Riscv2os.Xv7.Threads
