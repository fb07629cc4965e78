import Riscv2os.Xv7.MmapSystem

/-!
# Runs that are computed

The calls of a process with all their arguments, as functions on states. What they compute
is a run of the system.
-/

namespace Riscv2os.Xv7

open Riscv2os.Std

/-- A call or an access of a process. -/
inductive Call where
  | mmap (length prot flags fd : BitVec 32)
  | munmap (addr : Nat) (length : BitVec 32)
  | access (va : Nat) (byte : Option UInt8)
  | sbrk (n : BitVec 32)
  | fork
  | exit

instance (s : Machine) (p : Fin NPROC) : Decidable (s.Active p) :=
  inferInstanceAs (Decidable (_ ∧ _))

/-- One call. -/
def Call.perform (p : Fin NPROC) (s : MmapSys) (call : Call) : Except Fault MmapSys :=
  if ¬ s.machine.Active p then .error .blocked
  else
    match call with
    | .mmap length prot flags fd => do
        match ← s.machine.sysMmap p 0 length prot flags fd 0, s.machine.mapAlloc p with
        | (none, machine), _ => return { s with machine := machine }
        | (some va, machine), some (i, _) =>
            return {
              machine := machine
              returned := Function.update s.returned p (Function.update (s.returned p) i va) }
        | (some _, _), none => .error .blocked
    | .munmap addr length => do
        let (_, machine) ← s.machine.sysMunmap p addr length
        return { s with machine := machine }
    | .access va byte => do
        let machine ← s.machine.access p va byte
        return { s with machine := machine }
    | .sbrk n => do
        let (_, machine) ← s.machine.growproc p n
        return { s with machine := machine }
    | .fork => do
        match ← s.machine.fork p with
        | (none, machine) => return { s with machine := machine }
        | (some np, machine) =>
            return { machine := machine, returned := Function.update s.returned np (s.returned p) }
    | .exit => do
        let machine ← s.machine.exit p
        return { s with machine := machine }

/-- A call is a step of the system. -/
theorem Call.perform_step {p : Fin NPROC} {s next : MmapSys} {call : Call}
    (ran : call.perform p s = .ok next) : ∃ act, MmapStep s act next := by
  unfold perform at ran
  split at ran
  · cases ran
  next alive =>
  have active := not_not.mp alive
  cases call with
  | mmap length prot flags fd =>
      obtain ⟨⟨va, machine⟩, called, result⟩ := bind_ok.mp ran
      clear ran
      cases va with
      | none =>
          cases result
          exact ⟨_, .mmapFails active called⟩
      | some va =>
          cases entry : s.machine.mapAlloc p with
          | none =>
              rw [entry] at result
              cases result
          | some found =>
              rw [entry] at result
              cases result
              exact ⟨_, .mmap active entry called⟩
  | munmap addr length =>
      obtain ⟨⟨done, machine⟩, called, result⟩ := bind_ok.mp ran
      cases result
      exact ⟨_, .munmap active called⟩
  | access va byte =>
      obtain ⟨machine, called, result⟩ := bind_ok.mp ran
      cases result
      exact ⟨_, .access active called⟩
  | sbrk n =>
      obtain ⟨⟨done, machine⟩, called, result⟩ := bind_ok.mp ran
      cases result
      exact ⟨_, .sbrk active called⟩
  | fork =>
      obtain ⟨⟨child, machine⟩, called, result⟩ := bind_ok.mp ran
      clear ran
      cases child with
      | none =>
          cases result
          exact ⟨_, .forkFails active called⟩
      | some np =>
          cases result
          exact ⟨_, .fork active called⟩
  | exit =>
      obtain ⟨machine, called, result⟩ := bind_ok.mp ran
      cases result
      exact ⟨_, .exit active.1 called⟩

/-- The calls of processes, one after the other. -/
def MmapSys.after (s : MmapSys) (calls : List (Fin NPROC × Call)) : Except Fault MmapSys :=
  calls.foldlM (fun s call => call.2.perform call.1 s) s

theorem MmapSys.after_reachable {s t : MmapSys} {calls : List (Fin NPROC × Call)}
    (run : mmapSystem.Reachable s) (ran : s.after calls = .ok t) : mmapSystem.Reachable t := by
  refine foldlM_invariant mmapSystem.Reachable (fun call u next reached performed => ?_) run ran
  obtain ⟨act, step⟩ := Call.perform_step performed
  exact reached.step trivial step

/-- What a run of calls leads to, from a computation of what is seen there. -/
theorem reachable_after {α : Type} (calls : List (Fin NPROC × Call)) (see : MmapSys → α) (seen : α)
    (computed : (firstFile.after calls).map see = .ok seen) :
    ∃ s, mmapSystem.Reachable s ∧ see s = seen := by
  obtain ⟨s, ran, seen⟩ := map_ok.mp computed
  have start : mmapSystem.Reachable firstFile := firstFile_reachable trivial
  exact ⟨s, MmapSys.after_reachable start ran, seen⟩

end Riscv2os.Xv7
