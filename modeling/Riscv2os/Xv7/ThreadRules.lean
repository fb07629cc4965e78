import Riscv2os.Xv7.Threads

/-!
# What kernel code relies on

A rule for each step of a thread: what it needs of the locks that its CPU holds, of the interrupts and of its own
process, and what holds behind it. `Ok` says that the code of a thread follows the rules from some `Env` on, and the
code of every call does so again.
-/

namespace Riscv2os.Xv7.Threads

/-- What is known on a CPU where the code of its thread stands. -/
structure Env where
  /-- The locks with `lk->locked` set by this CPU. -/
  held : List Lock := []
  /-- `push_off`s for locks that are not yet, or no longer, held. -/
  extra : Nat := 0
  /-- The held lock without `lk->cpu`. -/
  bare : Option Lock := none
  /-- `p->state` of the process. -/
  own : ProcTable.ProcState := .running
  /-- Whether interrupts are on when no lock is held. -/
  on : Bool := false
  /-- A `sleep` between its call and `p->state = SLEEPING`. -/
  going : Option (Chan × Lock) := none
  /-- No process below this one sleeps on the channel after it gave up the lock. This is known while the lock is
  held. -/
  awake : Chan → Lock → Nat := fun _ _ => 0
  /-- The sleep locks that are free, but whose sleepers are not yet woken up. -/
  dirty : Nat → Bool := fun _ => false
  /-- The sleep lock that is to be released. -/
  drop : Option Nat := none

namespace Env

/-- `c->noff`. -/
def depth (e : Env) : Nat := e.held.length + e.extra

/-- Nothing is known any more of a lock that has been free. -/
def forget (awake : Chan → Lock → Nat) (lk : Lock) : Chan → Lock → Nat :=
  fun chan l => if l = lk then 0 else awake chan l

def acquired (e : Env) (lk : Lock) : Env := { e with held := lk :: e.held, awake := forget e.awake lk }

def released (e : Env) (lk : Lock) : Env := { e with held := e.held.erase lk }

/-- Behind a switch nothing is known of the sleepers. -/
def switched (e : Env) : Env := { e with own := .running, awake := fun _ _ => 0 }

/-- Behind `wakeup`. -/
def woken (e : Env) (chan : Chan) : Env where
  __ := e
  awake ch lk := match lk with
    | .proc _ => 0
    | lk => if ch = chan ∧ lk ∈ e.held then NPROC else e.awake ch lk
  dirty s := if chan = .sleep s then false else e.dirty s

/-- Behind the test of one process in `wakeup`. -/
def wokenOne (e : Env) (chan : Chan) (p : Fin NPROC) : Env where
  __ := e
  awake ch lk := if ch = chan ∧ lk ∈ e.held ∧ e.awake ch lk = p then p + 1 else e.awake ch lk

/-- Behind `lk->locked = 0` of a sleep lock. -/
def dropped (e : Env) (s : Nat) : Env where
  __ := e
  dirty t := if t = s then true else e.dirty t
  drop := none

/-- No lock is held, and nothing is under way. -/
structure Idle (e : Env) : Prop where
  held : e.held = []
  extra : e.extra = 0
  bare : e.bare = none
  own : e.own = .running
  going : e.going = none

/-- No call is under way, but locks may be held. -/
structure Steady (e : Env) : Prop where
  extra : e.extra = 0
  own : e.own = .running
  going : e.going = none
  dirty : e.dirty = fun _ => false

/-- A process that is not running has its lock, and is about to switch. -/
structure Parting (e : Env) (p : Fin NPROC) : Prop where
  held : e.held = [.proc p]
  extra : e.extra = 0
  own : e.own ≠ .running
  going : e.going = none
  dirty : e.dirty = fun _ => false

/-- A lock may be released. -/
structure MayRelease (proc : Option (Fin NPROC)) (e : Env) (lk : Lock) : Prop where
  held : lk ∈ e.held
  own : ∀ p, proc = some p → lk = .proc p → e.own = .running
  going : e.going ≠ none → ∃ p, proc = some p ∧ .proc p ∈ e.held.erase lk
  dirty : ∀ s, lk = .sleep s → e.dirty s = false

end Env

open Env

namespace Instr

/-- What a step needs, in the thread of a process or of a scheduler. -/
def Needs (proc : Option (Fin NPROC)) (e : Env) : Instr → Prop
  | .acquire lk => lk ∉ e.held ∧ (∀ chan, e.going ≠ some (chan, lk)) ∧ e.own = .running
  | .pushOff => True
  | .holding lk expected _ | .holdingCpu lk expected _ => lk ∈ e.held ↔ expected = true
  | .testAndSet lk => lk ∉ e.held ∧ (∀ chan, e.going ≠ some (chan, lk)) ∧ 0 < e.extra ∧ e.own = .running
  | .setCpu lk => e.bare = some lk ∧ lk ∈ e.held ∧ e.own = .running
  | .release lk | .clearCpu lk => MayRelease proc e lk
  | .lockRelease lk => e.bare = some lk ∧ MayRelease proc e lk
  | .popOff => 0 < e.extra
  | .scheduler | .intrOn | .intrOff => proc = none ∧ e.held = [] ∧ e.Steady
  | .scan _ _ => proc = none ∧ e.held = [] ∧ e.Steady ∧ e.on = false
  | .pick p _ => proc = none ∧ e.held = [.proc p] ∧ e.Steady ∧ e.on = false
  | .yield | .acquiresleep _ => proc ≠ none ∧ e.held = [] ∧ e.Steady
  | .setState state => e.own = .running ∧ e.going = none ∧ (state = .runnable ∨ state = .zombie) ∧
      ∃ p, proc = some p ∧ .proc p ∈ e.held
  | .sched | .swtch => ∃ p, proc = some p ∧ e.Parting p
  | .setIntena _ => e.held ≠ []
  | .sleep chan lk => proc ≠ none ∧ e.held = [lk] ∧ e.Steady ∧ ∀ s, chan ≠ .sleep s
  | .fallAsleep chan lk => e.own = .running ∧ e.going = some (chan, lk) ∧ (∀ s, chan = .sleep s → lk = .sleep s) ∧
      (e.awake = fun _ _ => 0) ∧ ∃ p, proc = some p ∧ .proc p ∈ e.held
  | .clearChan => e.own = .running ∧ ∃ p, proc = some p ∧ .proc p ∈ e.held
  | .wakeup chan i => e.going = none ∧ (∀ p, .proc p ∉ e.held) ∧ (∀ lk ∈ e.held, i ≤ e.awake chan lk) ∧ e.own = .running
  | .wake _ p | .wakeup1 p | .rouse p => .proc p ∈ e.held ∧ e.own = .running
  | .exit parent => e.Steady ∧ .proc parent ∈ e.held ∧
      ∃ p, proc = some p ∧ p ≠ parent ∧ e.held.erase (.proc parent) = [.proc p]
  | .panic _ => False
  | .takeSleep s => proc ≠ none ∧ e.held = [.sleep s] ∧ e.Steady
  | .releasesleep s => proc ≠ none ∧ e.Steady ∧ .sleep s ∉ e.held ∧ (∀ p, .proc p ∉ e.held) ∧ e.drop = some s
  | .dropSleep s => proc ≠ none ∧ .sleep s ∈ e.held ∧ e.going = none ∧ e.drop = some s
  | .client on => e.Steady ∧ e.on = on ∧ e.drop = none
  | .handler on => e.Steady ∧ e.on = on

/-- What holds behind a step. -/
def after (e : Env) : Instr → Env
  | .acquire lk => e.acquired lk
  | .pushOff => { e with extra := e.extra + 1 }
  | .testAndSet lk => { e.acquired lk with extra := e.extra - 1, bare := some lk }
  | .setCpu _ => { e with bare := none }
  | .release lk => e.released lk
  | .clearCpu lk => { e with bare := some lk }
  | .lockRelease lk => { e.released lk with extra := e.extra + 1, bare := none }
  | .popOff => { e with extra := e.extra - 1 }
  | .intrOn => { e with on := true }
  | .intrOff => { e with on := false }
  | .setState state => { e with own := state }
  | .yield | .sched | .swtch | .sleep _ _ | .acquiresleep _ | .takeSleep _ => e.switched
  | .setIntena intena => { e with on := intena }
  | .fallAsleep _ _ => { e with own := .sleeping, going := none }
  | .wakeup chan _ => e.woken chan
  | .wake chan p => e.wokenOne chan p
  | .wakeup1 p => e.wokenOne (.proc p) p
  | .releasesleep s => (((e.acquired (.sleep s)).dropped s).woken (.sleep s)).released (.sleep s)
  | .dropSleep s => e.dropped s
  | _ => e

/-- The steps in the middle of `acquire` and `release`, and of `sleep`. -/
structure Fits (e : Env) (i : Instr) : Prop where
  bare : ∀ lk, e.bare = some lk → i = .setCpu lk ∨ i = .lockRelease lk
  going : e.going ≠ none → e.held ≠ []

/-- The code behind a step goes on where `Rest` is known. A handler knows nothing of what is known behind it, except
that no lock is held, and that interrupts are on. -/
def Continues (e : Env) (rest : List Instr) (Rest : Env → Prop) : Instr → Prop
  | .client _ | .scheduler | .scan _ _ | .pick _ _ => rest = []
  | .handler _ => ∃ e', e'.Idle ∧ e'.on = true ∧ e'.drop = e.drop ∧ Rest e'
  | .exit _ => ∀ chan lk, .fallAsleep chan lk ∉ rest
  | .sched | .swtch =>
      if e.own = .zombie then ∀ chan lk, .fallAsleep chan lk ∉ rest else Rest e.switched
  | i => Rest (i.after e)

end Instr

open Threads.Instr

/-- The code of a thread follows the rules. -/
def Ok (proc : Option (Fin NPROC)) : List Instr → Env → Prop
  | [], _ => False
  | i :: rest, e => i.Fits e ∧ i.Needs proc e ∧ i.Continues e rest (Ok proc rest)

variable {proc : Option (Fin NPROC)} {e e' : Env} {rest : List Instr} {lk : Lock} {i : Instr} {p : Fin NPROC}

/-- A process that gave up its lock for a `sleep` that is not yet done is in the middle of that. -/
theorem Ok.going {code : List Instr} (ok : Ok proc code e) {chan : Chan} (member : .fallAsleep chan lk ∈ code) :
    e.going = some (chan, lk) := by
  induction code generalizing e with
  | nil => cases member
  | cons i rest ih =>
      obtain ⟨-, needs, ok⟩ := ok
      rcases List.mem_cons.mp member with rfl | later
      · exact needs.2.1
      cases i
      case client | scheduler | scan | pick =>
        rw [show rest = [] from ok] at later
        cases later
      case handler =>
        obtain ⟨e', idle, -, -, ok'⟩ := ok
        have none := ih ok' later
        rw [idle.going] at none
        cases none
      case exit => exact absurd later (ok chan lk)
      case sched | swtch =>
        simp only [Continues] at ok
        split at ok
        · exact absurd later (ok chan lk)
        · have before := ih ok later
          exact before
      case fallAsleep =>
        have before := ih ok later
        cases before
      all_goals
        have before := ih ok later
        exact before

/-- Where the sleepers of a free sleep lock are to be woken up, a `wakeup` is ahead. -/
theorem Ok.dirty {code : List Instr} (ok : Ok proc code e) {s : Nat} (dirty : e.dirty s = true) :
    ∃ i, .wakeup (.sleep s) i ∈ code := by
  induction code generalizing e with
  | nil => exact ok.elim
  | cons i rest ih =>
      obtain ⟨-, needs, ok⟩ := ok
      have steady (steady : e.Steady) : False := by
        rw [steady.dirty] at dirty
        cases dirty
      have further {e' : Env} (ok : Ok proc rest e') (dirty' : e'.dirty s = true) :
          ∃ j, .wakeup (.sleep s) j ∈ i :: rest := by
        obtain ⟨j, member⟩ := ih ok dirty'
        exact ⟨j, List.mem_cons_of_mem _ member⟩
      cases i
      case client | handler | exit => exact (steady needs.1).elim
      case scheduler | intrOn | intrOff => exact (steady needs.2.2).elim
      case scan | pick | sleep => exact (steady needs.2.2.1).elim
      case yield | acquiresleep | takeSleep => exact (steady needs.2.2).elim
      case releasesleep => exact (steady needs.2.1).elim
      case sched | swtch =>
        obtain ⟨p, -, parting⟩ := needs
        rw [parting.dirty] at dirty
        cases dirty
      case panic => exact needs.elim
      case wakeup chan j =>
        by_cases this : chan = .sleep s
        · exact ⟨j, this ▸ List.mem_cons_self⟩
        · exact further ok (by simpa [Instr.after, Env.woken, this] using dirty)
      case dropSleep t =>
        refine further ok ?_
        simp only [Instr.after, Env.dropped]
        split
        · rfl
        · exact dirty
      all_goals exact further ok dirty

/-! ## The code of the calls -/

namespace Ok

theorem congr {code : List Instr} (ok : Ok proc code e) (same : e = e') : Ok proc code e' := same ▸ ok

/-- What the step that comes next is in the middle of. -/
theorem fits (ok : Ok proc (i :: rest) e) : i.Fits e := ok.1

/-- What the step that comes next needs. -/
theorem needs (ok : Ok proc (i :: rest) e) : i.Needs proc e := ok.2.1

/-- Only two steps stand where a lock is held without its CPU. -/
theorem bare (ok : Ok proc (i :: rest) e) (set : ∀ lk, i ≠ .setCpu lk) (clear : ∀ lk, i ≠ .lockRelease lk) :
    e.bare = none := by
  by_contra some
  obtain ⟨lk, bare⟩ := Option.ne_none_iff_exists'.mp some
  rcases ok.fits.bare lk bare with same | same
  · exact set lk same
  · exact clear lk same

end Ok

namespace Instr

/-- Any step fits where no lock is without its CPU. -/
theorem Fits.of_bare (bare : e.bare = none) (going : e.going ≠ none → e.held ≠ []) : i.Fits e where
  bare lk some := by
    rw [bare] at some
    cases some
  going := going

/-- Where no call is under way every instruction fits. -/
theorem Fits.plain (bare : e.bare = none) (going : e.going = none) : i.Fits e :=
  .of_bare bare fun some => absurd going some

/-- Once a step fits, so does any other where no lock is without its CPU. -/
theorem Fits.other {j : Instr} (fits : i.Fits e) (bare : e.bare = none) : j.Fits e := .of_bare bare fits.going

end Instr

namespace Env

/-- What is known in the middle of `acquire` comes to what is known behind it. -/
theorem acquired_eq (bare : e.bare = none) :
    { ({ e with extra := e.extra + 1 } : Env).acquired lk with extra := e.extra + 1 - 1, bare := none } =
      e.acquired lk := by
  obtain ⟨⟩ := e
  cases bare
  rfl

/-- The same for `release`. -/
theorem released_eq (bare : e.bare = none) :
    { ({ e with bare := some lk } : Env).released lk with extra := e.extra + 1 - 1, bare := none } = e.released lk := by
  obtain ⟨⟩ := e
  cases bare
  rfl

/-- Where no call is under way, only the locks, the interrupts, and what is known of sleepers are left to say. -/
theorem Steady.form (steady : e.Steady) (bare : e.bare = none) :
    ∃ held on awake drop, e = { held := held, on := on, awake := awake, drop := drop } := by
  obtain ⟨held, extra, bare', own, on, going, awake, dirty, drop⟩ := e
  obtain ⟨rfl, rfl, rfl, rfl⟩ := steady
  cases bare
  exact ⟨held, on, awake, drop, rfl⟩

theorem steady_form (held : List Lock) (on : Bool) (awake : Chan → Lock → Nat) (drop : Option Nat) :
    ({ held := held, on := on, awake := awake, drop := drop } : Env).Steady := ⟨rfl, rfl, rfl, rfl⟩

/-- Where no call is under way every held lock may be released. -/
theorem MayRelease.of_steady (steady : e.Steady) (member : lk ∈ e.held) : MayRelease proc e lk where
  held := member
  own _ _ _ := steady.own
  going some := absurd steady.going some
  dirty _ _ := by rw [steady.dirty]

/-- The lock of a process can be released where the process runs. -/
theorem MayRelease.of_proc (own : e.own = .running) (going : e.going = none) (member : .proc p ∈ e.held) :
    MayRelease proc e (.proc p) where
  held := member
  own _ _ _ := own
  going some := absurd going some
  dirty _ same := nomatch same

/-- The sleepers that `wakeup` has left behind. -/
theorem wokenOne_awake {chan : Chan} {i : Nat} (h : i < NPROC) (member : lk ∈ e.held) (before : i ≤ e.awake chan lk) :
    i + 1 ≤ (e.wokenOne chan ⟨i, h⟩).awake chan lk := by
  simp only [wokenOne]
  split
  · exact le_rfl
  · next skip => exact Nat.lt_of_le_of_ne before fun same => skip ⟨trivial, member, same.symm⟩

/-- What `wakeup` adds to what is known. -/
theorem woken_known {chan ch : Chan} {n : Nat} (below : n < (e.woken chan).awake ch lk) :
    n < e.awake ch lk ∨ ch = chan ∧ lk ∈ e.held := by
  by_cases this : ch = chan ∧ lk ∈ e.held
  · exact .inr this
  · cases lk with
    | proc q => exact absurd below (Nat.not_lt_zero _)
    | sleep s => exact .inl (below.trans_eq (if_neg this))
    | other a => exact .inl (below.trans_eq (if_neg this))

/-- What the test of one process in `wakeup` adds to what is known. -/
theorem wokenOne_known {chan ch : Chan} {q : Fin NPROC} (below : q < (e.wokenOne chan p).awake ch lk) :
    q < e.awake ch lk ∨ q = p ∧ ch = chan := by
  simp only [wokenOne] at below
  split at below
  · next hit =>
      rw [hit.2.2]
      rcases Nat.lt_succ_iff_lt_or_eq.mp below with less | same
      · exact .inl less
      · exact .inr ⟨Fin.ext same, hit.1⟩
  · exact .inl below

/-- One round of `wakeup`, and the others. -/
theorem woken_round (chan : Chan) (p : Fin NPROC) :
    (((e.acquired (.proc p)).wokenOne chan p).released (.proc p)).woken chan = e.woken chan := by
  have held : ((e.acquired (.proc p)).wokenOne chan p).held.erase (.proc p) = e.held := List.erase_cons_head ..
  have awake : (((e.acquired (.proc p)).wokenOne chan p).released (.proc p)).woken chan =
      { e.woken chan with held := ((e.acquired (.proc p)).wokenOne chan p).held.erase (.proc p) } := by
    simp only [woken, released, held]
    congr 1
    funext ch lk
    cases lk with
    | proc q => rfl
    | sleep s =>
        by_cases other : ch = chan ∧ .sleep s ∈ e.held
        · simp [other.1, other.2]
        · simp [wokenOne, acquired, forget, other]
          tauto
    | other a =>
        by_cases other : ch = chan ∧ .other a ∈ e.held
        · simp [other.1, other.2]
        · simp [wokenOne, acquired, forget, other]
          tauto
  rw [awake, held]
  rfl

end Env

namespace Ok

/-- `acquire` follows the rules where a call of it does, and so do the other calls. -/
theorem acquire (ok : Ok proc (.acquire lk :: rest) e) :
    Ok proc ([.pushOff, .holding lk false "acquire", .testAndSet lk, .setCpu lk] ++ rest) e := by
  obtain ⟨fresh, apart, own⟩ := ok.needs
  have bare := ok.bare nofun nofun
  have going := ok.fits.going
  refine ⟨ok.fits.other bare, trivial, ⟨.of_bare bare going, iff_of_false fresh Bool.false_ne_true, ?_⟩⟩
  refine ⟨.of_bare bare going, ⟨fresh, apart, Nat.succ_pos _, own⟩,
    ⟨⟨?_, fun _ => List.cons_ne_nil _ _⟩, ⟨rfl, List.mem_cons_self, own⟩, ?_⟩⟩
  · intro lk' same
    cases same
    exact .inl rfl
  · have next : Ok proc rest (e.acquired lk) := ok.2.2
    rwa [← Env.acquired_eq bare] at next

theorem release (ok : Ok proc (.release lk :: rest) e) :
    Ok proc ([.holding lk true "release", .clearCpu lk, .lockRelease lk, .popOff] ++ rest) e := by
  have may : MayRelease proc e lk := ok.needs
  have bare := ok.bare nofun nofun
  refine ⟨ok.fits.other bare, iff_of_true may.held rfl, ⟨ok.fits.other bare, may, ?_⟩⟩
  refine ⟨⟨?_, ok.fits.going⟩, ⟨rfl, may.held, may.own, may.going, may.dirty⟩, ⟨.of_bare rfl ?_, Nat.succ_pos _, ?_⟩⟩
  · intro lk' same
    cases same
    exact .inr rfl
  · intro going
    obtain ⟨p, -, member⟩ := may.going going
    exact List.ne_nil_of_mem member
  · have next : Ok proc rest (e.released lk) := ok.2.2
    rwa [← Env.released_eq bare] at next

theorem sched (ok : Ok proc (.sched :: rest) e) (process : proc = some p) :
    Ok proc ([.holding (.proc p) true "sched p->lock", .swtch] ++ rest) e := by
  have bare := ok.bare nofun nofun
  obtain ⟨q, this, parting⟩ := ok.needs
  rw [process] at this
  cases this
  refine ⟨ok.fits.other bare, iff_of_true (by rw [parting.held]; exact List.mem_singleton_self _) rfl,
    ⟨ok.fits.other bare, ⟨p, process, parting⟩, ok.2.2⟩⟩

theorem wakeup1 (ok : Ok proc (.wakeup1 p :: rest) e) :
    Ok proc ([.holding (.proc p) true "wakeup1", .wake (.proc p) p] ++ rest) e := by
  have bare := ok.bare nofun nofun
  exact ⟨ok.fits.other bare, iff_of_true ok.needs.1 rfl, ⟨ok.fits.other bare, ok.needs, ok.2.2⟩⟩

theorem scheduler (ok : Ok proc (.scheduler :: rest) e) : Ok proc ([.intrOn, .intrOff, .scan 0 false] ++ rest) e := by
  have bare := ok.bare nofun nofun
  obtain ⟨none, held, steady⟩ := ok.needs
  have steady' (on : Bool) : ({ e with on := on } : Env).Steady :=
    ⟨steady.extra, steady.own, steady.going, steady.dirty⟩
  refine ⟨.plain bare steady.going, ⟨none, held, steady⟩, .plain bare steady.going, ⟨none, held, steady' true⟩, ?_⟩
  exact ⟨.plain bare steady.going, ⟨none, held, steady' false, rfl⟩, ok.2.2⟩

/-- A scheduler behind the test of a process. -/
theorem scan_next {i : Nat} {found : Bool} (steady : e.Steady) (bare : e.bare = none) (held : e.held = [.proc p])
    (off : e.on = false) : Ok none [.release (.proc p), .scan i found] e := by
  obtain ⟨held', on, awake, drop, rfl⟩ := steady.form bare
  cases held
  cases off
  refine ⟨.plain rfl rfl, .of_steady steady List.mem_cons_self, .plain rfl rfl, ⟨rfl, ?_, Env.steady_form .., rfl⟩, rfl⟩
  exact List.erase_cons_head ..

/-- A scheduler looks at the next process. -/
theorem scan {i : Nat} {found : Bool} (ok : Ok proc (.scan i found :: rest) e) (h : i < NPROC) :
    Ok proc ([.acquire (.proc ⟨i, h⟩), .pick ⟨i, h⟩ found] ++ rest) e := by
  obtain ⟨none, held, steady, off⟩ := ok.needs
  obtain ⟨held', on, awake, drop, rfl⟩ := steady.form (ok.bare nofun nofun)
  cases held
  cases off
  refine ⟨.plain rfl rfl, ⟨List.not_mem_nil, nofun, rfl⟩, .plain rfl rfl, ⟨none, rfl, Env.steady_form .., rfl⟩, ok.2.2⟩

/-- A scheduler has looked at all processes. -/
theorem scan_end {i : Nat} {found : Bool} (ok : Ok proc (.scan i found :: rest) e) :
    Ok proc (.scheduler :: rest) e := by
  obtain ⟨none, held, steady, -⟩ := ok.needs
  exact ⟨ok.fits.other (ok.bare nofun nofun), ⟨none, held, steady⟩, ok.2.2⟩

theorem yield (ok : Ok proc (.yield :: rest) e) (process : proc = some p) :
    Ok proc ([.acquire (.proc p), .setState .runnable, .sched, .release (.proc p)] ++ rest) e := by
  obtain ⟨-, held, steady⟩ := ok.needs
  obtain ⟨held', on, awake, drop, rfl⟩ := steady.form (ok.bare nofun nofun)
  cases held
  refine ⟨.plain rfl rfl, ⟨List.not_mem_nil, nofun, rfl⟩, .plain rfl rfl,
    ⟨rfl, rfl, .inl rfl, p, process, List.mem_cons_self⟩, .plain rfl rfl, ⟨p, process, rfl, rfl, nofun, rfl, rfl⟩, ?_⟩
  refine ⟨.plain rfl rfl, .of_proc rfl rfl List.mem_cons_self, ?_⟩
  have next : Ok proc rest _ := ok.2.2
  refine next.congr ?_
  simp [Instr.after, Env.switched, Env.acquired, Env.released]

/-- `sleep`, from the call on. -/
theorem sleepCode {chan : Chan} (steady : e.Steady) (bare : e.bare = none) (held : e.held = [lk])
    (process : proc = some p) (inner : ∀ s, chan = .sleep s → lk = .sleep s) (next : Ok proc rest e.switched) :
    Ok proc (Kernel.sleepCode p chan lk ++ rest) { e with going := some (chan, lk), awake := fun _ _ => 0 } := by
  obtain ⟨held', on, awake, drop, rfl⟩ := steady.form bare
  cases held
  unfold Kernel.sleepCode
  split
  · next same =>
      subst same
      refine ⟨.of_bare rfl nofun, ⟨rfl, rfl, inner, rfl, p, process, List.mem_cons_self⟩, .plain rfl rfl,
        ⟨p, process, rfl, rfl, nofun, rfl, rfl⟩, ?_⟩
      exact ⟨.plain rfl rfl, ⟨rfl, p, process, List.mem_cons_self⟩, next⟩
  · next other =>
      have apart : ¬ Lock.proc p = lk := fun same => other same.symm
      have left : [Lock.proc p, lk].erase lk = [.proc p] := by
        rw [List.erase_cons_tail (by simpa using apart), List.erase_cons_head]
      refine ⟨.of_bare rfl nofun, ⟨by simpa using apart, fun chan same => ?_, rfl⟩, .of_bare rfl nofun,
        ⟨by simp [Instr.after, Env.acquired], fun _ _ _ => rfl, fun _ => ⟨p, process, ?_⟩, fun _ _ => rfl⟩, ?_⟩
      · cases same
        exact apart rfl
      · change Lock.proc p ∈ [Lock.proc p, lk].erase lk
        rw [left]
        exact List.mem_singleton_self _
      have given : ({ held := [.proc p], on := on, going := some (chan, lk), drop := drop } : Env) =
          Env.released (Env.acquired { held := [lk], on := on, going := some (chan, lk), drop := drop } (.proc p))
            lk := by
        simp only [Env.acquired, Env.released, left]
        congr 1
        funext ch l
        exact (ite_self 0).symm
      refine Ok.congr ?_ given
      refine ⟨.of_bare rfl nofun, ⟨rfl, rfl, inner, rfl, p, process, List.mem_cons_self⟩, .plain rfl rfl,
        ⟨p, process, rfl, rfl, nofun, rfl, rfl⟩, ?_⟩
      refine ⟨.plain rfl rfl, ⟨rfl, p, process, List.mem_cons_self⟩, .plain rfl rfl,
        .of_proc rfl rfl List.mem_cons_self, .plain rfl rfl, ⟨?_, nofun, rfl⟩, next.congr ?_⟩
      · change lk ∉ [Lock.proc p].erase (.proc p)
        rw [List.erase_cons_head]
        exact List.not_mem_nil
      · simp only [Instr.after, Env.switched, Env.acquired, Env.released, List.erase_cons_head]
        congr 1
        funext ch l
        exact (ite_self 0).symm

theorem sleep {chan : Chan} (ok : Ok proc (.sleep chan lk :: rest) e) (process : proc = some p) :
    Ok proc (Kernel.sleepCode p chan lk ++ rest) { e with going := some (chan, lk), awake := fun _ _ => 0 } := by
  obtain ⟨-, held, steady, outer⟩ := ok.needs
  exact sleepCode steady (ok.bare nofun nofun) held process (fun s same => absurd same (outer s)) ok.2.2

/-- The loop of `acquiresleep` while the lock is taken. -/
theorem takeSleep {s : Nat} (ok : Ok proc (.takeSleep s :: rest) e) (process : proc = some p) :
    Ok proc (Kernel.sleepCode p (.sleep s) (.sleep s) ++ .takeSleep s :: rest)
      { e with going := some (.sleep s, .sleep s), awake := fun _ _ => 0 } := by
  obtain ⟨some, held, steady⟩ := ok.needs
  have bare := ok.bare nofun nofun
  refine sleepCode steady bare held process (fun _ same => by cases same; rfl) ⟨?_, ⟨some, held, ?_⟩, ok.2.2⟩
  · exact .plain bare steady.going
  · exact ⟨steady.extra, rfl, steady.going, steady.dirty⟩

/-- One round of `wakeup`: the sleepers below `i + 1` are awake behind it. -/
theorem wakeup {chan : Chan} {i : Nat} (ok : Ok proc (.wakeup chan i :: rest) e) (h : i < NPROC) :
    Ok proc ([.acquire (.proc ⟨i, h⟩), .wake chan ⟨i, h⟩, .release (.proc ⟨i, h⟩), .wakeup chan (i + 1)] ++ rest)
      e := by
  obtain ⟨going, none, before, own⟩ := ok.needs
  have bare := ok.bare nofun nofun
  have held : ((e.acquired (.proc ⟨i, h⟩)).wokenOne chan ⟨i, h⟩).held.erase (.proc ⟨i, h⟩) = e.held :=
    List.erase_cons_head ..
  have fresh {lk : Lock} (member : lk ∈ e.held) : lk ≠ .proc ⟨i, h⟩ := fun same => none _ (same ▸ member)
  refine ⟨.plain bare going, ⟨none _, by rw [going]; nofun, own⟩, .plain bare going,
    ⟨List.mem_cons_self, own⟩, .plain bare going, .of_proc own going List.mem_cons_self, .plain bare going,
    ⟨going, fun p => ?_, fun lk member => ?_, own⟩, ?_⟩
  · change .proc p ∉ ((e.acquired (.proc ⟨i, h⟩)).wokenOne chan ⟨i, h⟩).held.erase (.proc ⟨i, h⟩)
    rw [held]
    exact none p
  · change lk ∈ ((e.acquired (.proc ⟨i, h⟩)).wokenOne chan ⟨i, h⟩).held.erase (.proc ⟨i, h⟩) at member
    rw [held] at member
    refine Env.wokenOne_awake h (List.mem_cons_of_mem _ member) ?_
    change i ≤ Env.forget e.awake (.proc ⟨i, h⟩) chan lk
    rw [Env.forget, if_neg (fresh member)]
    exact before lk member
  · have next : Ok proc rest (e.woken chan) := ok.2.2
    rwa [← Env.woken_round chan ⟨i, h⟩] at next

/-- The end of `exit` is never left. -/
theorem exit {parent : Fin NPROC} (ok : Ok proc (.exit parent :: rest) e) (process : proc = some p) :
    Ok proc ([.wakeup1 parent, .setState .zombie, .release (.proc parent), .sched, .panic "zombie exit"] ++ rest)
      e := by
  obtain ⟨steady, member, q, this, apart, left⟩ := ok.needs
  obtain ⟨held, on, awake, drop, rfl⟩ := steady.form (ok.bare nofun nofun)
  rw [process] at this
  cases this
  have own : Lock.proc p ∈ held := List.mem_of_mem_erase (by rw [left]; exact List.mem_singleton_self _)
  refine ⟨.plain rfl rfl, ⟨member, rfl⟩, .plain rfl rfl, ⟨rfl, rfl, .inr rfl, p, process, own⟩, .plain rfl rfl,
    ⟨member, fun q this same => ?_, nofun, fun _ _ => rfl⟩, .plain rfl rfl,
    ⟨p, process, left, rfl, nofun, rfl, rfl⟩, ?_⟩
  · rw [process] at this
    cases this
    cases same
    exact absurd rfl apart
  · have none : ∀ chan lk, Instr.fallAsleep chan lk ∉ rest := ok.2.2
    simp only [Instr.after]
    intro chan lk later
    rcases List.mem_cons.mp later with same | later
    · cases same
    · exact none chan lk later

theorem acquiresleep {s : Nat} (ok : Ok proc (.acquiresleep s :: rest) e) :
    Ok proc ([.acquire (.sleep s), .takeSleep s, .release (.sleep s)] ++ rest) e := by
  obtain ⟨some, held, steady⟩ := ok.needs
  obtain ⟨held', on, awake, drop, rfl⟩ := steady.form (ok.bare nofun nofun)
  cases held
  refine ⟨.plain rfl rfl, ⟨List.not_mem_nil, nofun, rfl⟩, .plain rfl rfl, ⟨some, rfl, Env.steady_form ..⟩,
    .plain rfl rfl, .of_steady (Env.steady_form ..) List.mem_cons_self, ?_⟩
  have next : Ok proc rest _ := ok.2.2
  refine next.congr ?_
  simp [Instr.after, Env.switched, Env.acquired, Env.released]

theorem releasesleep {s : Nat} (ok : Ok proc (.releasesleep s :: rest) e) :
    Ok proc ([.acquire (.sleep s), .dropSleep s, .wakeup (.sleep s) 0, .release (.sleep s)] ++ rest) e := by
  obtain ⟨some, steady, fresh, none, drop⟩ := ok.needs
  obtain ⟨held, on, awake, drop', rfl⟩ := steady.form (ok.bare nofun nofun)
  cases drop
  refine ⟨.plain rfl rfl, ⟨fresh, nofun, rfl⟩, .plain rfl rfl, ⟨some, List.mem_cons_self, rfl, rfl⟩, .plain rfl rfl,
    ⟨rfl, fun p member => ?_, fun _ _ => Nat.zero_le _, rfl⟩, .plain rfl rfl,
    ⟨List.mem_cons_self, fun _ _ _ => rfl, fun going => absurd rfl going, fun t same => ?_⟩, ok.2.2⟩
  · rcases List.mem_cons.mp member with same | member
    · cases same
    · exact none p member
  · cases same
    exact if_pos rfl

/-! ## The client -/

section Client

variable {code : List Instr} (client : ∃ on rest, code = .client on :: rest ∨ code = .handler on :: rest)
  (ok : Ok proc code e)
include client ok

/-- In the code of the client no call is under way. -/
theorem steady : e.Steady ∧ e.bare = none := by
  obtain ⟨on, rest, rfl | rfl⟩ := client
  · exact ⟨ok.needs.1, ok.bare nofun nofun⟩
  · exact ⟨ok.needs.1, ok.bare nofun nofun⟩

/-- The client does not rely on more than that no call is under way. -/
theorem calm (steady : e'.Steady) (bare : e'.bare = none) (on : e'.on = e.on) (drop : e'.drop = e.drop) :
    Ok proc code e' := by
  obtain ⟨on', rest, rfl | rfl⟩ := client
  · exact ⟨.plain bare steady.going, ⟨steady, on.trans ok.needs.2.1, drop.trans ok.needs.2.2⟩, ok.2.2⟩
  · obtain ⟨e'', idle, on'', drop'', next⟩ := ok.2.2
    exact ⟨.plain bare steady.going, ⟨steady, on.trans ok.needs.2⟩, e'', idle, on'', drop''.trans drop.symm, next⟩

/-- `intr_on` and `intr_off`. -/
theorem noted (on : Bool) : Ok proc (Kernel.noted on code) { e with on := on } := by
  have steady := ok.steady client
  have steady' : ({ e with on := on } : Env).Steady := ⟨steady.1.extra, steady.1.own, steady.1.going, steady.1.dirty⟩
  obtain ⟨on', rest, rfl | rfl⟩ := client
  · exact ⟨.plain steady.2 steady.1.going, ⟨steady', rfl, ok.needs.2.2⟩, ok.2.2⟩
  · exact ⟨.plain steady.2 steady.1.going, ⟨steady', rfl⟩, ok.2.2⟩

end Client

/-- An interrupt. -/
theorem interrupted {code : List Instr} (ok : Ok proc code e) (idle : e.Idle) (on : e.on = true) :
    Ok proc (.handler false :: code) { drop := e.drop } :=
  ⟨.plain rfl rfl, ⟨⟨rfl, rfl, rfl, rfl⟩, rfl⟩, e, idle, on, rfl, ok⟩

end Ok

end Riscv2os.Xv7.Threads
