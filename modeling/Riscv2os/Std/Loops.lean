import Mathlib.Tactic

/-!
# Functions that may fail, loops, and sums over tables

Rules for code in `Except`: what a successful sequence of two calls went through,
the invariant rule of a loop over a list, and the ways in which code can fail
(`FailsOnly`). `sum_update` is the effect on a sum
over a table of a store into one of its entries.
-/

namespace Riscv2os.Std

universe u v w

variable {ε : Type u} {α β : Type v}

/-- A sequence of two calls returns when the first returns and then the second. -/
theorem bind_ok {first : Except ε α} {second : α → Except ε β} {result : β} :
    (first >>= second) = .ok result ↔ ∃ middle, first = .ok middle ∧ second middle = .ok result := by
  constructor
  · intro ran
    cases first with
    | error fault => cases ran
    | ok middle => exact ⟨middle, rfl, ran⟩
  · rintro ⟨middle, rfl, ran⟩
    exact ran

theorem ok_bind (value : α) (next : α → Except ε β) :
    ((.ok value : Except ε α) >>= next) = next value := rfl

/-- What is seen of the result of a call is seen of a value that the call returns. -/
theorem map_ok {first : Except ε α} {see : α → β} {seen : β} :
    first.map see = .ok seen ↔ ∃ value, first = .ok value ∧ see value = seen := by
  cases first with
  | error fault => simp [Except.map]
  | ok value => simp [Except.map]

/-- A call that evaluates to a value returns it. The default is never used. -/
theorem ok_getD {result : Except ε α} (returns : result.toOption.isSome = true) (default : α) :
    result = .ok (result.toOption.getD default) := by
  cases result with
  | error fault => cases returns
  | ok value => rfl

/-- A call that evaluates to a pair with this first part returns the pair. -/
theorem ok_mk_getD {result : Except ε (α × β)} {value : α}
    (returned : result.toOption.map Prod.fst = some value) (default : β) :
    result = .ok (value, (result.toOption.map Prod.snd).getD default) := by
  cases result with
  | error fault => cases returned
  | ok pair =>
      cases returned
      rfl

/-- The invariant rule of a loop over a list. The invariant sees the rounds to go. -/
theorem foldlM_rule {ι : Type w} {body : α → ι → Except ε α} (inv : List ι → α → Prop)
    (round : ∀ i rest state next, inv (i :: rest) state → body state i = .ok next → inv rest next)
    {rounds : List ι} {state final : α} (start : inv rounds state)
    (ran : rounds.foldlM body state = .ok final) : inv [] final := by
  induction rounds generalizing state with
  | nil =>
      cases ran
      exact start
  | cons i rest ih =>
      rw [List.foldlM_cons, bind_ok] at ran
      obtain ⟨next, first, ran⟩ := ran
      exact ih (round i rest state next start first) ran

/-- The rule for an invariant that does not count the rounds. -/
theorem foldlM_invariant {ι : Type w} {body : α → ι → Except ε α} (inv : α → Prop)
    (round : ∀ i state next, inv state → body state i = .ok next → inv next)
    {rounds : List ι} {state final : α} (start : inv state)
    (ran : rounds.foldlM body state = .ok final) : inv final :=
  foldlM_rule (fun _ => inv) (fun i _ state next => round i state next) start ran

/-- A loop whose rounds do not look at what `see` changes. -/
theorem foldlM_map {ι : Type w} {body : α → ι → Except ε α} (see : α → α)
    (round : ∀ i state, body (see state) i = (body state i).map see) (rounds : List ι) (state : α) :
    rounds.foldlM body (see state) = (rounds.foldlM body state).map see := by
  induction rounds generalizing state with
  | nil => rfl
  | cons i rest ih =>
      rw [List.foldlM_cons, List.foldlM_cons, round]
      cases body state i with
      | error => rfl
      | ok next => exact ih next

/-- Every failure of the code is an allowed one. -/
def FailsOnly (allowed : ε → Prop) (result : Except ε α) : Prop :=
  ∀ fault, result = .error fault → allowed fault

namespace FailsOnly

variable {allowed : ε → Prop}

theorem ok (value : α) : FailsOnly allowed (.ok value : Except ε α) := by
  intro fault failed
  cases failed

theorem error {fault : ε} (isAllowed : allowed fault) :
    FailsOnly allowed (.error fault : Except ε α) := by
  intro other failed
  cases failed
  exact isAllowed

/-- A sequence of two calls fails where the first does, or the second after the first. -/
theorem bind {first : Except ε α} {second : α → Except ε β} (one : FailsOnly allowed first)
    (two : ∀ middle, first = .ok middle → FailsOnly allowed (second middle)) :
    FailsOnly allowed (first >>= second) := by
  intro fault failed
  cases first with
  | error other =>
      cases failed
      exact one fault rfl
  | ok middle => exact two middle rfl fault failed

/-- A loop fails where one of its rounds does. -/
theorem foldlM {ι : Type w} {body : α → ι → Except ε α}
    (round : ∀ i state, FailsOnly allowed (body state i)) (rounds : List ι) (state : α) :
    FailsOnly allowed (rounds.foldlM body state) := by
  induction rounds generalizing state with
  | nil => exact ok state
  | cons i rest ih =>
      rw [List.foldlM_cons]
      exact (round i state).bind fun next _ => ih next

end FailsOnly

/-- The effect of one store on a sum over a table. -/
theorem sum_update {ι : Type u} [Fintype ι] [DecidableEq ι] {γ : Type v} {δ : Type w}
    [AddCommGroup δ] (table : ι → γ) (weight : γ → δ) (i : ι) (entry : γ) :
    ∑ j, weight (Function.update table i entry j) =
      ∑ j, weight (table j) + (weight entry - weight (table i)) := by
  have split : ∀ table : ι → γ, ∑ j, weight (table j) =
      weight (table i) + ∑ j ∈ Finset.univ.erase i, weight (table j) := fun table =>
    (Finset.add_sum_erase _ _ (Finset.mem_univ i)).symm
  have others : ∑ j ∈ Finset.univ.erase i, weight (Function.update table i entry j) =
      ∑ j ∈ Finset.univ.erase i, weight (table j) := by
    apply Finset.sum_congr rfl
    intro j other
    rw [Function.update_of_ne (Finset.ne_of_mem_erase other)]
  rw [split (Function.update table i entry), split table, others, Function.update_self]
  abel

end Riscv2os.Std
