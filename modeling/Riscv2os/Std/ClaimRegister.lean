import Mathlib.Tactic

/-!
# A register that reports requests

Requesters put their numbers into one register, which is read and written as well. A reader is to find every
request once. What a run of accesses has requested and reported is kept as a history, and the accesses that
lose or repeat a request are told by the request that waits in the register when they are made.
-/

namespace Riscv2os.Std

/-- What is done with the register. -/
inductive ClaimAccess (ι : Type) where
  /-- A requester puts its number into the register. -/
  | request (n : ι)
  | read
  | write (v : ι)
deriving DecidableEq, Repr

/-- What is remembered of the accesses. -/
inductive ClaimEvent (ι : Type) where
  | requested (n : ι)
  /-- A read that found this number. -/
  | reported (n : ι)
deriving DecidableEq, Repr

/-- The register, and its history with the earliest event first. -/
structure ClaimRegister (ι : Type) where
  value : ι
  history : List (ClaimEvent ι)

namespace ClaimRegister

open ClaimEvent

variable {ι : Type} {register : ClaimRegister ι} {m n v : ι} {history earlier later : List (ClaimEvent ι)}

/-- The register after an access. -/
def after (register : ClaimRegister ι) : ClaimAccess ι → ClaimRegister ι
  | .request n => ⟨n, register.history ++ [requested n]⟩
  | .read => ⟨register.value, register.history ++ [reported register.value]⟩
  | .write v => ⟨v, register.history⟩

/-- The register after some accesses. -/
def afterAll (register : ClaimRegister ι) (accesses : List (ClaimAccess ι)) : ClaimRegister ι :=
  accesses.foldl after register

/-- The request that was made after the last read. -/
def waiting (register : ClaimRegister ι) : Option ι :=
  match register.history.getLast? with
  | some (requested n) => some n
  | _ => none

/-- An access that neither loses nor repeats a request: a request comes when no other one waits, a read finds a
request that waits or a number that was never requested, and a write leaves the number that waits. -/
def Timely (register : ClaimRegister ι) : ClaimAccess ι → Prop
  | .request _ => register.waiting = none
  | .read => register.waiting ≠ none ∨ requested register.value ∉ register.history
  | .write v => register.waiting = none ∨ register.waiting = some v

/-- Every one of some accesses is timely. -/
def AllTimely (register : ClaimRegister ι) : List (ClaimAccess ι) → Prop
  | [] => True
  | access :: accesses => Timely register access ∧ AllTimely (register.after access) accesses

theorem waiting_requested (v n : ι) (earlier : List (ClaimEvent ι)) :
    waiting ⟨v, earlier ++ [requested n]⟩ = some n := by
  simp [waiting]

theorem waiting_reported (v n : ι) (earlier : List (ClaimEvent ι)) :
    waiting ⟨v, earlier ++ [reported n]⟩ = none := by
  simp [waiting]

/-- Where a request stands in a history that got one more event. -/
theorem split_concat {event : ClaimEvent ι} (split : history ++ [event] = earlier ++ requested n :: later) :
    (earlier = history ∧ event = requested n ∧ later = []) ∨
      ∃ before, later = before ++ [event] ∧ history = earlier ++ requested n :: before := by
  rcases List.eq_nil_or_concat' later with rfl | ⟨before, last, rfl⟩
  · obtain ⟨rfl, same⟩ := List.append_inj' split rfl
    exact .inl ⟨rfl, List.singleton_inj.mp same, rfl⟩
  · refine .inr ⟨before, ?_⟩
    have regrouped : history ++ [event] = (earlier ++ requested n :: before) ++ [last] := by
      rw [split, List.append_assoc]
      rfl
    obtain ⟨rfl, same⟩ := List.append_inj' regrouped rfl
    rw [List.singleton_inj.mp same]
    exact ⟨rfl, rfl⟩

/-- The last request of a number. -/
theorem exists_last (member : requested n ∈ history) :
    ∃ earlier later, history = earlier ++ requested n :: later ∧ requested n ∉ later := by
  obtain ⟨later, earlier, split, last⟩ := List.eq_append_cons_of_mem (List.mem_reverse.mpr member)
  refine ⟨earlier.reverse, later.reverse, ?_, fun inside => last (List.mem_reverse.mp inside)⟩
  rw [← List.reverse_reverse history, split]
  simp

variable [DecidableEq ι]

/-- How often a request of this number is reported in what comes after it, before the number is requested again. -/
def reports (n : ι) : List (ClaimEvent ι) → Nat
  | [] => 0
  | requested m :: later => if m = n then 0 else reports n later
  | reported m :: later => (if m = n then 1 else 0) + reports n later

/-- A request with this history after it has been reported once, or not yet and is still in the register. -/
def Reported (register : ClaimRegister ι) (n : ι) (later : List (ClaimEvent ι)) : Prop :=
  reports n later = 1 ∨ reports n later = 0 ∧ requested n ∉ later ∧ register.value = n

/-- Every request is reported once, now or by a later read. -/
def EachReported (register : ClaimRegister ι) : Prop :=
  ∀ earlier n later, register.history = earlier ++ requested n :: later → Reported register n later

section Reports

/-! ## Counting reports -/

/-- A later request ends the count. -/
theorem reports_requested (n m : ι) (later : List (ClaimEvent ι)) :
    reports n (later ++ [requested m]) = reports n later := by
  induction later with
  | nil => simp [reports]
  | cons event later ih =>
      cases event with
      | requested k => simp only [List.cons_append, reports, ih]
      | reported k => simp only [List.cons_append, reports, ih]

/-- A report of another number, or after the number was requested again, does not count. -/
theorem reports_other (other : v ≠ n ∨ requested n ∈ later) :
    reports n (later ++ [reported v]) = reports n later := by
  induction later with
  | nil =>
      have apart : v ≠ n := other.resolve_right List.not_mem_nil
      simp [reports, apart]
  | cons event later ih =>
      cases event with
      | requested k =>
          by_cases same : k = n
          · simp [reports, same]
          · have rest : v ≠ n ∨ requested n ∈ later := by simpa [Ne.symm same] using other
            simp only [List.cons_append, reports, ih rest]
      | reported k =>
          have rest : v ≠ n ∨ requested n ∈ later := by simpa using other
          simp only [List.cons_append, reports, ih rest]

/-- A report of the number counts. -/
theorem reports_reported (last : requested n ∉ later) :
    reports n (later ++ [reported n]) = reports n later + 1 := by
  induction later with
  | nil => simp [reports]
  | cons event later ih =>
      have rest : requested n ∉ later := fun member => last (List.mem_cons_of_mem _ member)
      cases event with
      | requested k =>
          have other : k ≠ n := fun same => last (by simp [same])
          simp only [List.cons_append, reports, if_neg other, ih rest]
      | reported k =>
          simp only [List.cons_append, reports, ih rest]
          omega

end Reports

/-! ## Nothing lost and nothing repeated -/

/-- Every request has been reported once. -/
def Settled (history : List (ClaimEvent ι)) : Prop :=
  ∀ earlier n later, history = earlier ++ requested n :: later → reports n later = 1

/-- Every request has been reported once, but for one that has just been made. -/
inductive Sound : ClaimRegister ι → Prop where
  | settled {register : ClaimRegister ι} (none : register.waiting = none) (each : Settled register.history) :
      Sound register
  | pending {n : ι} {earlier : List (ClaimEvent ι)} (each : Settled earlier) :
      Sound ⟨n, earlier ++ [requested n]⟩

theorem Sound.eachReported (sound : Sound register) : EachReported register := by
  intro first n later split
  cases sound with
  | settled none each => exact .inl (each _ _ _ split)
  | pending each =>
      rcases split_concat split with ⟨-, same, rfl⟩ | ⟨before, rfl, inner⟩
      · cases same
        exact .inr ⟨rfl, List.not_mem_nil, rfl⟩
      · exact .inl ((reports_requested ..).trans (each _ _ _ inner))

/-- Reading the request that waits settles it. -/
theorem Settled.read (each : Settled earlier) (n : ι) : Settled (earlier ++ [requested n] ++ [reported n]) := by
  intro first k later split
  rcases split_concat split with ⟨-, same, -⟩ | ⟨before, rfl, inner⟩
  · cases same
  rcases split_concat inner with ⟨-, same, rfl⟩ | ⟨middle, rfl, innermost⟩
  · cases same
    exact reports_reported List.not_mem_nil
  · have counted := each _ _ _ innermost
    rw [reports_other, reports_requested, counted]
    by_cases same : n = k
    · exact .inr (by simp [same])
    · exact .inl same

/-- Reading a number that was never requested reports nothing. -/
theorem Settled.read_other (each : Settled history) (other : requested v ∉ history) :
    Settled (history ++ [reported v]) := by
  intro first k later split
  rcases split_concat split with ⟨-, same, -⟩ | ⟨before, rfl, inner⟩
  · cases same
  · have apart : v ≠ k := by
      rintro rfl
      exact other (by simp [inner])
    rw [reports_other (.inl apart)]
    exact each _ _ _ inner

/-- A timely access loses and repeats nothing. -/
theorem Sound.after {access : ClaimAccess ι} (sound : Sound register) (timely : Timely register access) :
    Sound (register.after access) := by
  cases sound with
  | settled none each =>
      cases access with
      | request n => exact .pending each
      | read =>
          have other := timely.resolve_left (not_not.mpr none)
          exact .settled (waiting_reported ..) (each.read_other other)
      | write v => exact .settled none each
  | @pending n earlier each =>
      have waits := waiting_requested n n earlier
      cases access with
      | request m =>
          rw [Timely, waits] at timely
          cases timely
      | read => exact .settled (waiting_reported ..) (each.read n)
      | write v =>
          rw [Timely, waits] at timely
          cases timely.resolve_left nofun
          exact .pending each

theorem Sound.afterAll {accesses : List (ClaimAccess ι)} (sound : Sound register)
    (timely : AllTimely register accesses) : Sound (register.afterAll accesses) := by
  induction accesses generalizing register with
  | nil => exact sound
  | cons access accesses ih => exact ih (sound.after timely.1) timely.2

/-- A read that is not timely repeats a report, and a write does not undo that. -/
theorem Sound.repeats (sound : Sound register) (late : ¬ Timely register .read) (value : ι) :
    ¬ EachReported ⟨value, (register.after .read).history⟩ := by
  intro each
  rw [Timely, not_or, not_not, not_not] at late
  obtain ⟨none, again⟩ := late
  cases sound with
  | settled _ once =>
      obtain ⟨earlier, later, split, last⟩ := exists_last again
      have counted := reports_reported last
      rw [once _ _ _ split] at counted
      have two := each earlier register.value (later ++ [reported register.value])
        (by simp [ClaimRegister.after, split])
      rw [Reported, counted] at two
      omega
  | pending _ =>
      rw [waiting_requested] at none
      cases none

/-- An access that is not timely loses or repeats a request. -/
theorem Sound.loses {access : ClaimAccess ι} (sound : Sound register) (late : ¬ Timely register access) :
    ¬ EachReported (register.after access) := by
  cases access with
  | read => exact sound.repeats late _
  | request m =>
      cases sound with
      | settled none _ => exact absurd none late
      | @pending n earlier _ =>
          intro each
          have lost := each earlier n [requested m] (by simp [ClaimRegister.after])
          rcases lost with once | ⟨_, other, same⟩
          · by_cases same : m = n <;> simp [reports, same] at once
          · exact other (List.mem_singleton.mpr (congrArg requested same.symm))
  | write v =>
      cases sound with
      | settled none _ => exact absurd (.inl none) late
      | @pending n earlier _ =>
          intro each
          rcases each earlier n [] rfl with once | ⟨_, _, same⟩
          · cases once
          · refine late (.inr ?_)
            rw [waiting_requested]
            exact congrArg some same.symm

/-- Before an access everything is reported once; then that is so after it exactly if it is timely. -/
theorem Sound.eachReported_after {access : ClaimAccess ι} (sound : Sound register) :
    EachReported (register.after access) ↔ Timely register access :=
  ⟨fun each => by_contra fun late => sound.loses late each, fun timely => (sound.after timely).eachReported⟩

/-- The same for a read with a write behind it, which finds nothing that waits. -/
theorem Sound.eachReported_exchange (sound : Sound register) (v : ι) :
    EachReported ((register.after .read).after (.write v)) ↔ Timely register .read := by
  constructor
  · exact fun each => by_contra fun late => sound.repeats late v each
  · intro timely
    have free : Timely (register.after .read) (.write v) := Or.inl (waiting_reported ..)
    exact ((sound.after timely).after free).eachReported

end ClaimRegister

end Riscv2os.Std
