import Mathlib.Tactic

/-!
# Labelled transition systems and their invariants

A `TransitionSystem` keeps its label on every step, so that a condition on the
steps of a run (`ReachableUnder`) is a condition on the state before the step
and on what is done there. `ReachableUnder.invariant` packages the induction
over runs once.
-/

namespace Riscv2os.Std

universe u v w

/-- Initial states and labelled steps over one type of states. -/
structure TransitionSystem (State : Type u) (Label : Type v) where
  Initial : State → Prop
  Step : State → Label → State → Prop

namespace TransitionSystem

variable {State : Type u} {Label : Type v} {system : TransitionSystem State Label}

/-- The states of the runs whose every step meets `allowed` in the state it is
taken from. -/
inductive ReachableUnder (system : TransitionSystem State Label)
    (allowed : State → Label → Prop) : State → Prop where
  | initial {state} (valid : system.Initial state) : ReachableUnder system allowed state
  | step {state label next} (prior : ReachableUnder system allowed state)
      (permitted : allowed state label) (transition : system.Step state label next) :
      ReachableUnder system allowed next

/-- The states of all runs. -/
abbrev Reachable (system : TransitionSystem State Label) : State → Prop :=
  system.ReachableUnder fun _ _ => True

/-- A property that holds at the start and that every permitted step preserves. -/
structure Inductive (system : TransitionSystem State Label)
    (allowed : State → Label → Prop) (Inv : State → Prop) : Prop where
  initial : ∀ {state}, system.Initial state → Inv state
  preserved : ∀ {state label next}, Inv state → allowed state label →
    system.Step state label next → Inv next

/-- An inductive property holds in every state of the permitted runs. -/
theorem ReachableUnder.invariant {allowed : State → Label → Prop} {Inv : State → Prop}
    (inductive_ : system.Inductive allowed Inv) {state : State}
    (run : system.ReachableUnder allowed state) : Inv state := by
  induction run with
  | initial valid => exact inductive_.initial valid
  | step _ permitted transition ih => exact inductive_.preserved ih permitted transition

/-- Weakening the condition on steps keeps a state reachable. -/
theorem ReachableUnder.mono {allowed permitted : State → Label → Prop}
    (weaker : ∀ {state label}, allowed state label → permitted state label)
    {state : State} (run : system.ReachableUnder allowed state) :
    system.ReachableUnder permitted state := by
  induction run with
  | initial valid => exact .initial valid
  | step _ condition transition ih => exact .step ih (weaker condition) transition

/-- The states after some permitted steps. -/
inductive StepsUnder (system : TransitionSystem State Label) (allowed : State → Label → Prop)
    (start : State) : State → Prop where
  | refl : StepsUnder system allowed start start
  | step {state label next} (prior : StepsUnder system allowed start state)
      (permitted : allowed state label) (transition : system.Step state label next) :
      StepsUnder system allowed start next

/-- A run goes on. -/
theorem ReachableUnder.steps {allowed permitted : State → Label → Prop} {start state : State}
    (run : system.ReachableUnder allowed start) (more : system.StepsUnder permitted start state)
    (weaker : ∀ {state label}, permitted state label → allowed state label) :
    system.ReachableUnder allowed state := by
  induction more with
  | refl => exact run
  | step _ condition transition ih => exact .step ih (weaker condition) transition

/-- A run, with the states in which its steps were taken and their labels, the earliest first. -/
inductive Run (system : TransitionSystem State Label) : List (State × Label) → State → Prop where
  | initial {state} (valid : system.Initial state) : Run system [] state
  | step {taken state label next} (prior : Run system taken state) (transition : system.Step state label next) :
      Run system (taken ++ [(state, label)]) next

/-- A condition on steps that an invariant makes exact for one step is exact for whole runs: a property holds in
every state of a run exactly if every step of the run meets the condition. -/
theorem Run.forall_iff {allowed : State → Label → Prop} {Inv Good : State → Prop}
    (inductive_ : system.Inductive allowed Inv) (good : ∀ {state}, Inv state → Good state)
    (exact_ : ∀ {state label next}, Inv state → system.Step state label next → Good next → allowed state label)
    {taken : List (State × Label)} {state : State} (run : system.Run taken state) :
    ((∀ visited ∈ taken, Good visited.1) ∧ Good state) ↔ ∀ step ∈ taken, allowed step.1 step.2 := by
  have invariant : ∀ {taken state}, system.Run taken state → (∀ step ∈ taken, allowed step.1 step.2) →
      (∀ visited ∈ taken, Good visited.1) ∧ Inv state := by
    intro taken state run
    induction run with
    | initial valid => exact fun _ => ⟨fun _ none => absurd none List.not_mem_nil, inductive_.initial valid⟩
    | step prior transition ih =>
        intro permitted
        rw [List.forall_mem_append, List.forall_mem_singleton] at permitted
        obtain ⟨visited, holds⟩ := ih permitted.1
        rw [List.forall_mem_append, List.forall_mem_singleton]
        exact ⟨⟨visited, good holds⟩, inductive_.preserved holds permitted.2 transition⟩
  constructor
  · induction run with
    | initial valid => exact fun _ _ none => absurd none List.not_mem_nil
    | step prior transition ih =>
        rintro ⟨visited, last⟩
        rw [List.forall_mem_append, List.forall_mem_singleton] at visited
        have permitted := ih visited
        rw [List.forall_mem_append, List.forall_mem_singleton]
        exact ⟨permitted, exact_ (invariant prior permitted).2 transition last⟩
  · intro permitted
    obtain ⟨visited, holds⟩ := invariant run permitted
    exact ⟨visited, good holds⟩

/-- Forward simulation: where every permitted step has a step of the abstract system with its label, every run whose
steps are permitted has an abstract run with its labels. -/
theorem Run.simulated {Abstract : Type w} {abstract : TransitionSystem Abstract Label}
    {allowed : State → Label → Prop} {Related : State → Abstract → Prop}
    (initial : ∀ {state}, system.Initial state → ∃ a, abstract.Initial a ∧ Related state a)
    (step : ∀ {state a label next}, Related state a → allowed state label → system.Step state label next →
      ∃ b, abstract.Step a label b ∧ Related next b)
    {taken : List (State × Label)} {state : State} (run : system.Run taken state)
    (permitted : ∀ step ∈ taken, allowed step.1 step.2) :
    ∃ trace a, abstract.Run trace a ∧ trace.map Prod.snd = taken.map Prod.snd ∧ Related state a := by
  induction run with
  | initial valid =>
      obtain ⟨a, valid', related⟩ := initial valid
      exact ⟨[], a, .initial valid', rfl, related⟩
  | @step taken state label next _ transition ih =>
      rw [List.forall_mem_append, List.forall_mem_singleton] at permitted
      obtain ⟨trace, a, run', labels, related⟩ := ih permitted.1
      obtain ⟨b, transition', related'⟩ := step related permitted.2 transition
      refine ⟨trace ++ [(a, label)], b, .step run' transition', ?_, related'⟩
      rw [List.map_append, List.map_append, labels]
      rfl

end TransitionSystem

end Riscv2os.Std
