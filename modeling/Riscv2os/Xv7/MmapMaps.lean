import Riscv2os.Xv7.MmapFrames

/-!
# The entries of `minfo` over a run

Every entry of every process is, after a step, an entry from before with the same
index, one that `exit` or `munmap` has dropped, the new one of an `mmap`, or one that
`munmap` has cut. An invariant of entries has to look at these cases only.
-/

namespace Riscv2os.Xv7

open Riscv2os.Std

/-- What a step can make of entry `i` of a process. -/
inductive MapChange (s : MmapSys) (act : MmapAct) (i : Fin MMAP_NUM) : MapInfo → Prop where
  | same (q : Fin NPROC) : MapChange s act i ((s.machine.proc q).minfo i)
  | dropped (q : Fin NPROC) :
      MapChange s act i { (s.machine.proc q).minfo i with used := false }
  | new {p addr length prot flags fd offset f}
      (isMmap : act = .mmap p addr length prot flags fd offset) :
      MapChange s act i (Machine.newMap i length prot flags f)
  | cut {p addr length} (isMunmap : act = .munmap p addr length) (low : MMAP_VSTART ≤ addr)
      (sel : mapSel (pgRoundDown addr) = .ok i) (used : ((s.machine.proc p).minfo i).used = true) :
      MapChange s act i (Machine.cutMap ((s.machine.proc p).minfo i) addr
        (Machine.munmapStop addr length))

namespace Machine

variable {s s' : Machine} {p : Fin NPROC}

/-- A change of one entry of one process. -/
theorem updateMap_minfo (s : Machine) (p : Fin NPROC) (i : Fin MMAP_NUM)
    (change : MapInfo → MapInfo) (q : Fin NPROC) (j : Fin MMAP_NUM) :
    ((s.updateMap p i change).proc q).minfo j =
      if q = p ∧ j = i then change ((s.proc p).minfo i) else (s.proc q).minfo j := by
  by_cases sameQ : q = p
  · subst sameQ
    by_cases sameJ : j = i
    · subst sameJ
      simp [updateMap, updateProc]
    · simp [updateMap, updateProc, sameJ]
  · simp [updateMap, updateProc, sameQ]

/-- The loop of `exit` over the mappings drops all entries. -/
theorem exitMaps_maps (ran : s.exitMaps p = .ok s') (q : Fin NPROC) (i : Fin MMAP_NUM) :
    (s'.proc q).minfo i = (s.proc q).minfo i ∨
      (s'.proc q).minfo i = { (s.proc q).minfo i with used := false } := by
  revert q i
  refine foldlM_invariant (fun t => ∀ q i, (t.proc q).minfo i = (s.proc q).minfo i ∨
    (t.proc q).minfo i = { (s.proc q).minfo i with used := false }) ?_ (fun _ _ => .inl rfl) ran
  intro i t next before ran q j
  split at ran
  · rw [bind_ok] at ran
    obtain ⟨u, _, ran⟩ := ran
    cases ran
    rw [(Kept.withUvm _ p u).minfo, updateMap_minfo]
    split
    · next same =>
      obtain ⟨rfl, rfl⟩ := same
      rcases before q j with entry | entry <;> simp [entry]
    · exact before q j
  · cases ran
    exact before q j

/-- `sys_munmap` leaves the bounds of entries alone until it is through with the pages. -/
theorem munmapLoop_kept {map : MapInfo} {vpageBase stop : Nat}
    (ran : (pagesBetween vpageBase stop).foldlM (munmapPage p map vpageBase) s = .ok s') :
    Kept s s' :=
  foldlM_invariant (Kept s) (fun _ _ _ kept ran => kept.trans (munmapPage_kept ran)) (.refl s) ran

/-- `freeproc` leaves the entries as they are. -/
theorem freeproc_maps (ran : s.freeproc p = .ok s') (q : Fin NPROC) :
    (s'.proc q).minfo = (s.proc q).minfo := by
  obtain ⟨m, _, rfl⟩ := freeproc_cases ran
  by_cases same : q = p
  · subst same
    simp [updateProc]
  · simp [updateProc, same]

theorem forkFails_maps (ran : s.fork p = .ok (none, s')) (q : Fin NPROC) :
    (s'.proc q).minfo = (s.proc q).minfo := by
  rcases fork_none_cases ran with ⟨_, rfl⟩ | ⟨np, alloc, u, found, _, freed⟩
  · rfl
  rw [freeproc_maps freed, (Kept.withUvm alloc np u).minfo]
  obtain ⟨_, tf, root, m, m', _, _, rfl⟩ := allocproc_cases found
  by_cases same : q = np
  · subst same
    simp [updateProc]
  · simp [updateProc, same]

end Machine

/-- The cases of `MapChange` are all. -/
theorem MmapStep.mapChange {s next : MmapSys} {act : MmapAct} (step : MmapStep s act next)
    (inv : s.machine.FrameInv) (p : Fin NPROC) (i : Fin MMAP_NUM) :
    MapChange s act i ((next.machine.proc p).minfo i) := by
  have ofSame : ∀ {m : Machine}, (∀ q, (m.proc q).minfo = (s.machine.proc q).minfo) →
      MapChange s act i ((m.proc p).minfo i) := by
    intro m same
    rw [same]
    exact .same p
  have ofUpdate : ∀ {m : Machine} (q : Fin NPROC) (j : Fin MMAP_NUM) (change : MapInfo → MapInfo),
      (∀ q, (m.proc q).minfo = (s.machine.proc q).minfo) →
      (i = j → MapChange s act i (change ((s.machine.proc q).minfo j))) →
      MapChange s act i (((m.updateMap q j change).proc p).minfo i) := by
    intro m q j change same changed
    rw [Machine.updateMap_minfo]
    split
    · next entry =>
      rw [same]
      exact changed entry.2
    · exact ofSame same
  cases step with
  | openFile _ _ ran =>
      exact ofSame ((Machine.SameMemories.ftable _ _).trans (Machine.openInode_same ran)).maps
  | dup _ ran => exact ofSame (Machine.sysDup_same ran).maps
  | close _ ran => exact ofSame (Machine.sysClose_same ran).maps
  | write => exact .same p
  | mmap _ _ ran =>
      rcases Machine.sysMmap_cases ran with ⟨_, rfl⟩ | ⟨f, j, _, ftable, _, _, _, _, _, rfl⟩
      · exact .same p
      · dsimp only
        refine ofUpdate _ _ _ ?_ ?_
        · exact fun _ => rfl
        · rintro rfl
          exact .new rfl
  | mmapFails _ ran =>
      rcases Machine.sysMmap_cases ran with ⟨_, rfl⟩ | ⟨_, _, _, _, _, _, _, _, impossible, _⟩
      · exact .same p
      · cases impossible
  | munmap _ ran =>
      rcases Machine.sysMunmap_cases ran with ⟨_, rfl⟩ | ⟨j, looped, _, low, sel, used, loop, cut⟩
      · exact .same p
      have kept := Machine.munmapLoop_kept loop
      rcases cut with ⟨_, _, f, ftable, _, _, rfl⟩ | ⟨_, rfl⟩ <;> dsimp only
      · refine ofUpdate _ _ _ kept.minfo ?_
        rintro rfl
        exact .dropped _
      · refine ofUpdate _ _ _ kept.minfo ?_
        rintro rfl
        exact .cut rfl low sel used
  | access _ ran => exact ofSame (Machine.access_kept ran).minfo
  | copyOut _ ran =>
      cases ran
      exact ofSame (Machine.Kept.withUvm _ _ _).minfo
  | sbrk _ ran => exact ofSame fun q => by rw [(Machine.growproc_resized ran).proc q]
  | exec _ ran => exact ofSame fun q => by rw [(Machine.exec_resized ran).proc q]
  | @fork q np machine active ran =>
      obtain ⟨u, tf, forked⟩ := Machine.fork_forked inv active ran
      by_cases child : p = np
      · subst child
        change MapChange _ _ i ((machine.proc p).minfo i)
        rw [forked.maps]
        dsimp only
        split
        · exact .same q
        · exact .same p
      · change MapChange _ _ i ((machine.proc p).minfo i)
        rw [forked.others p child]
        exact .same p
  | forkFails _ ran => exact ofSame (Machine.forkFails_maps ran)
  | @exit r machine _ ran =>
      obtain ⟨_, shut, looped, files, maps, rfl⟩ := Machine.exit_cases ran
      have entries := Machine.exitMaps_maps maps
      have same := (Machine.exitFiles_same files).maps
      have final : ∀ {m : Machine}, (∀ q, (m.proc q).minfo = (looped.proc q).minfo) →
          MapChange s (.exit r) i ((m.proc p).minfo i) := by
        intro m unchanged
        rw [unchanged]
        rcases entries p i with entry | entry
        · rw [entry, same]
          exact .same p
        · rw [entry, same]
          exact .dropped p
      refine final fun q => ?_
      by_cases own : q = r
      · subst own
        simp [Machine.updateProc]
      · simp [Machine.updateProc, own]
  | reap _ ran => exact ofSame (Machine.freeproc_maps ran)

/-- The rule for invariants of entries. -/
theorem maps_of_run {allowed : MmapSys → MmapAct → Prop} {P : Fin MMAP_NUM → MapInfo → Prop}
    (empty : ∀ i, P i {})
    (dropped : ∀ {i map}, P i map → P i { map with used := false })
    (new : ∀ {s p addr length prot flags fd offset i f},
      allowed s (.mmap p addr length prot flags fd offset) →
        P i (Machine.newMap i length prot flags f))
    (cut : ∀ {s p addr length i}, allowed s (.munmap p addr length) → MMAP_VSTART ≤ addr →
      mapSel (pgRoundDown addr) = .ok i → ((s.machine.proc p).minfo i).used = true →
      P i ((s.machine.proc p).minfo i) → P i (Machine.cutMap ((s.machine.proc p).minfo i) addr
        (Machine.munmapStop addr length)))
    {s : MmapSys} (run : mmapSystem.ReachableUnder allowed s) (p : Fin NPROC) (i : Fin MMAP_NUM) :
    P i ((s.machine.proc p).minfo i) := by
  have inductive_ : mmapSystem.Inductive allowed fun s =>
      s.machine.FrameInv ∧ ∀ p i, P i ((s.machine.proc p).minfo i) := by
    constructor
    · intro s start
      refine ⟨Machine.FrameInv.boot start, fun p i => ?_⟩
      rw [start.notMapped]
      exact empty i
    · rintro s act next ⟨inv, entries⟩ permitted step
      refine ⟨step.frameInv inv, fun p i => ?_⟩
      have change := step.mapChange inv p i
      revert change
      generalize (next.machine.proc p).minfo i = map
      intro change
      cases change with
      | same q => exact entries q i
      | dropped q => exact dropped (entries q i)
      | new isMmap =>
          subst isMmap
          exact new permitted
      | cut isMunmap low sel used =>
          subst isMunmap
          exact cut permitted low sel used (entries _ i)
  exact (run.invariant inductive_).2 p i

/-- A live mapping has a file. -/
theorem map_file_of_run {s : MmapSys} (run : mmapSystem.Reachable s) (p : Fin NPROC)
    (i : Fin MMAP_NUM) (used : ((s.machine.proc p).minfo i).used = true) :
    ∃ f, ((s.machine.proc p).minfo i).file = some f := by
  have backed := maps_of_run (P := fun _ map => map.used = true → ∃ f, map.file = some f)
    (fun _ used => by cases used) (fun _ used => by cases used)
    (fun {_ _ _ _ _ _ _ _ _ f} _ _ => ⟨f, rfl⟩) (fun _ _ _ _ backed => backed) run p i
  exact backed used

end Riscv2os.Xv7
