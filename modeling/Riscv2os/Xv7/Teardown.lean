import Riscv2os.Xv7.ExitPages
import Riscv2os.Xv7.MmapCalls
import Riscv2os.Xv7.MmapIsolation

/-!
# The end of an address space

`exec` frees the old page table as it is, and so needs one without pages above the size of
the process. `exit` first unmaps the pages of the live mappings, and the parent frees the
rest after any number of steps of other processes.
-/

namespace Riscv2os.Xv7

open Riscv2os.Std

/-- The live mappings of a process. -/
def Proc.live (proc : Proc) : List MapInfo :=
  ((List.finRange MMAP_NUM).map proc.minfo).filter MapInfo.used

theorem Proc.mem_live {proc : Proc} {map : MapInfo} :
    map ∈ proc.live ↔ ∃ i, (proc.minfo i).used = true ∧ proc.minfo i = map := by
  simp only [live, List.mem_filter, List.mem_map, List.mem_finRange, true_and]
  constructor
  · rintro ⟨⟨i, rfl⟩, used⟩
    exact ⟨i, used, rfl⟩
  · rintro ⟨i, used, rfl⟩
    exact ⟨⟨i, rfl⟩, used⟩

theorem MapInfo.drop_unused {map : MapInfo} (unused : map.used = false) :
    { map with used := false } = map := by
  cases map
  cases unused
  rfl

namespace Machine

variable {s s' : Machine} {p q : Fin NPROC} {i : Fin MMAP_NUM} {rounds : List (Fin MMAP_NUM)} {u : Uvm}

/-- The process has the memory `u`, and no entry of `rounds` is in use. -/
def afterDedup (s : Machine) (p : Fin NPROC) (rounds : List (Fin MMAP_NUM)) (u : Uvm) : Machine :=
  ({ s with kmem := u.kmem } : Machine).updateProc p fun proc =>
    { proc with
      pagetable := u.pagetable
      minfo := fun i => if i ∈ rounds then { proc.minfo i with used := false } else proc.minfo i }

theorem afterDedup_proc : (s.afterDedup p rounds u).proc p = { s.proc p with
    pagetable := u.pagetable
    minfo := fun i => if i ∈ rounds then { (s.proc p).minfo i with used := false }
      else (s.proc p).minfo i } := Function.update_self ..

theorem afterDedup_uvm : (s.afterDedup p rounds u).uvm p = u := by
  rw [uvm, afterDedup_proc]
  rfl

/-- One round. -/
private theorem exitMap_ok :
    (if ((s.proc p).minfo i).used then do
        let s := s.updateMap p i fun map => { map with used := false }
        let u ← (s.uvm p).mmapDedup ((s.proc p).minfo i)
        return s.withUvm p u
      else return s) = Except.ok s' ↔
      ∃ u, (s.uvm p).dedupAll (([i].map (s.proc p).minfo).filter MapInfo.used) = .ok u ∧
        s' = s.afterDedup p [i] u := by
  by_cases used : ((s.proc p).minfo i).used = true
  · have one : (s.uvm p).dedupAll (([i].map (s.proc p).minfo).filter MapInfo.used) =
        (s.uvm p).mmapDedup ((s.proc p).minfo i) := by
      simp [Uvm.dedupAll, used]
    obtain ⟨cut, isCut⟩ : ∃ cut, cut = s.updateMap p i fun map => { map with used := false } := ⟨_, rfl⟩
    have same : (cut.uvm p).mmapDedup ((cut.proc p).minfo i) =
        (s.uvm p).mmapDedup ((s.proc p).minfo i) := by
      rw [isCut]
      simp [uvm, updateMap, updateProc, Uvm.mmapDedup]
    have after : ∀ u, cut.withUvm p u = s.afterDedup p [i] u := by
      intro u
      rw [isCut]
      simp only [withUvm, updateMap, updateProc, afterDedup, Function.update_self,
        Function.update_idem, List.mem_singleton]
      congr 3
      funext j
      by_cases entry : j = i
      · simp [entry]
      · simp [entry]
    rw [if_pos used, one, ← same, ← isCut, bind_ok]
    simp only [after]
    exact exists_congr fun u => and_congr_right fun _ => ⟨fun ran => (Except.ok.inj ran).symm, congrArg _ ∘ Eq.symm⟩
  · have none : ([i].map (s.proc p).minfo).filter MapInfo.used = [] := by
      simp [used]
    have after : s.afterDedup p [i] (s.uvm p) = s := by
      have maps : (fun j => if j ∈ [i] then { (s.proc p).minfo j with used := false }
          else (s.proc p).minfo j) = (s.proc p).minfo := by
        funext j
        split
        · next same =>
          rw [List.mem_singleton.mp same]
          exact MapInfo.drop_unused (Bool.not_eq_true _ ▸ used)
        · rfl
      simp only [afterDedup, updateProc]
      rw [maps]
      simp [uvm]
    rw [if_neg used, none]
    constructor
    · intro ran
      exact ⟨s.uvm p, rfl, (Except.ok.inj ran).symm.trans after.symm⟩
    · rintro ⟨u, ran, rfl⟩
      cases ran
      rw [after]
      rfl

/-- The loop of `exit` over some entries. -/
private theorem exitLoop_ok (nodup : rounds.Nodup) :
    rounds.foldlM (fun s i =>
      if ((s.proc p).minfo i).used then do
        let s := s.updateMap p i fun map => { map with used := false }
        let u ← (s.uvm p).mmapDedup ((s.proc p).minfo i)
        return s.withUvm p u
      else return s) s = Except.ok s' ↔
      ∃ u, (s.uvm p).dedupAll ((rounds.map (s.proc p).minfo).filter MapInfo.used) = .ok u ∧
        s' = s.afterDedup p rounds u := by
  induction rounds generalizing s with
  | nil =>
      have after : s.afterDedup p [] (s.uvm p) = s := by
        simp [afterDedup, updateProc, uvm]
      constructor
      · intro ran
        exact ⟨s.uvm p, rfl, (Except.ok.inj ran).symm.trans after.symm⟩
      · rintro ⟨u, ran, rfl⟩
        cases ran
        rw [after]
        rfl
  | cons i rounds ih =>
      obtain ⟨apart, nodup⟩ := List.nodup_cons.mp nodup
      have maps : ∀ u, rounds.map ((s.afterDedup p [i] u).proc p).minfo = rounds.map (s.proc p).minfo := by
        intro u
        refine List.map_congr_left fun j listed => ?_
        rw [afterDedup_proc]
        refine if_neg fun same => apart ?_
        rwa [← List.mem_singleton.mp same]
      have after : ∀ u u', (s.afterDedup p [i] u).afterDedup p rounds u' =
          s.afterDedup p (i :: rounds) u' := by
        intro u u'
        simp only [updateProc, afterDedup, Function.update_self, Function.update_idem, List.mem_cons]
        congr 3
        funext j
        by_cases entry : j = i
        · simp [entry, apart]
        · simp [entry]
      have split : ((i :: rounds).map (s.proc p).minfo).filter MapInfo.used =
          ([i].map (s.proc p).minfo).filter MapInfo.used ++
            (rounds.map (s.proc p).minfo).filter MapInfo.used := by
        rw [← List.filter_append, ← List.map_append, List.singleton_append]
      rw [List.foldlM_cons, bind_ok, split, Uvm.dedupAll, List.foldlM_append]
      simp only [exitMap_ok, ih nodup, bind_ok]
      constructor
      · rintro ⟨next, ⟨u, first, rfl⟩, u', later, rfl⟩
        rw [afterDedup_uvm, maps] at later
        exact ⟨u', ⟨u, first, later⟩, after u u'⟩
      · rintro ⟨u', ⟨u, first, later⟩, rfl⟩
        refine ⟨_, ⟨u, first, rfl⟩, u', ?_, (after u u').symm⟩
        rwa [afterDedup_uvm, maps]

/-- A zombie with the memory `u` and no live mapping. -/
def gone (s : Machine) (p : Fin NPROC) (u : Uvm) : Machine :=
  let looped := s.afterDedup p (List.finRange MMAP_NUM) u
  { looped with ftable := looped.ftable.iput (looped.proc p).cwd }.updateProc p fun proc =>
    { proc with state := .zombie }

theorem gone_uvm : (s.gone p u).uvm p = u := by
  simp [gone, uvm, afterDedup, updateProc]

theorem gone_proc : ((s.gone p u).proc p).state = .zombie ∧
    ((s.gone p u).proc p).sz = (s.proc p).sz ∧ ((s.gone p u).proc p).top = (s.proc p).top := by
  simp [gone, afterDedup, updateProc]

/-- `exit`, once the files are closed. -/
theorem exit_ok {shut : Machine} (files : s.exitFiles p = .ok shut) :
    s.exit p = .ok s' ↔
      p ≠ initproc ∧ ∃ u, (s.uvm p).dedupAll (s.proc p).live = .ok u ∧ s' = shut.gone p u := by
  have same := exitFiles_same files
  have uvms : shut.uvm p = s.uvm p := by
    rw [uvm, same.kmem, (same.procs p).pagetable]
    rfl
  have loop : ∀ {looped : Machine}, shut.exitMaps p = .ok looped ↔
      ∃ u, (s.uvm p).dedupAll (s.proc p).live = .ok u ∧
        looped = shut.afterDedup p (List.finRange MMAP_NUM) u := by
    intro looped
    rw [Proc.live, ← same.maps, ← uvms]
    exact exitLoop_ok (List.nodup_finRange _)
  by_cases first : p = initproc
  · rw [Machine.exit, if_pos first]
    exact iff_of_false (fun ran => by cases ran) fun condition => condition.1 first
  rw [Machine.exit, if_neg first, files]
  change (shut.exitMaps p >>= _) = _ ↔ _
  rw [bind_ok]
  constructor
  · rintro ⟨looped, maps, ran⟩
    obtain ⟨u, dedup, rfl⟩ := loop.mp maps
    exact ⟨first, u, dedup, (Except.ok.inj ran).symm⟩
  · rintro ⟨_, u, dedup, rfl⟩
    exact ⟨_, loop.mpr ⟨u, dedup, rfl⟩, rfl⟩

/-- What makes of an entry that is left depends on the content of its page. -/
theorem nothingAbove_congr (u u' : Uvm) (sz : Nat) (leaves : ∀ vpn, u'.leafAt vpn = u.leafAt vpn)
    (mem : Set.EqOn u'.kmem.mem u.kmem.mem u.pagetable.frames) :
    u'.NothingAbove sz ↔ u.NothingAbove sz := by
  unfold Uvm.NothingAbove Uvm.Empty
  simp only [leaves]
  refine forall_congr' fun vpn => forall_congr' fun pte => forall_congr' fun found => ?_
  rw [mem (Uvm.frame_of_leaf found)]

/-- The parent frees a process exactly if the kernel's pages have their entries, there is memory
below the size and nothing above it. -/
theorem freeproc_iff (inv : s.FrameInv) (used : (s.proc p).state ≠ .unused) :
    (∃ done, s.freeproc p = .ok done ∧ ∀ f ∈ s.ownFrames p, f ∈ done.kmem.freelist) ↔
      (s.proc p).top.Present (s.proc p).pagetable ∧ 0 < (s.proc p).sz ∧
        (s.uvm p).NothingAbove (s.proc p).sz := by
  obtain ⟨owns, fresh⟩ := inv.owned.owns used
  obtain ⟨owns, mem⟩ := owns.kfree fresh
  have condition := nothingAbove_congr (s.uvm p)
    ⟨s.kmem.kfree (s.proc p).tf, (s.proc p).pagetable⟩ (s.proc p).sz (fun _ => rfl)
    (mem.mono Set.subset_union_left)
  rw [← condition]
  refine Iff.trans ?_ (and_congr_right' (Uvm.freeUser_iff owns (inv.pages p used)))
  constructor
  · rintro ⟨done, ran, freed⟩
    obtain ⟨m, free, rfl⟩ := freeproc_cases ran
    obtain ⟨present, free⟩ := TopPages.procFreepagetable_ok.mp free
    exact ⟨present, m, free, fun f own => freed f (mem_ownFrames used (.inl own))⟩
  · rintro ⟨present, m, free, freed⟩
    refine ⟨_, bind_ok.mpr ⟨m, TopPages.procFreepagetable_ok.mpr ⟨present, free⟩, rfl⟩, ?_⟩
    rintro f ⟨o, rfl, found⟩
    unfold frameOf at found
    rw [if_neg used] at found
    cases o with
    | table p place => exact freed f ⟨place, found⟩
    | tf p =>
        cases found
        exact Uvm.freeUser_more free List.mem_cons_self

/-- `exec` has built the new image, of this size, and goes on to commit to it. -/
def Builds (s : Machine) (p : Fin NPROC) (ip : Inode) (argv : List (List UInt8)) (sz : Nat)
    (u : Uvm) (top : TopPages) : Prop :=
  ∃ elf new, ip.readi (fun _ => 0) 0 64 = (elf, 64) ∧ field elf 0 4 = ELF_MAGIC ∧
    procPagetable s.kmem (s.proc p).tf = .ok (new, top) ∧
      new.buildImage ip elf argv = .ok (true, sz, u)

theorem exec_commits {ip : Inode} {argv : List (List UInt8)} {sz : Nat} {top : TopPages}
    (builds : s.Builds p ip argv sz u top) :
    s.exec p ip argv = .ok (true, s') ↔ s.execCommit p u top sz = .ok s' := by
  obtain ⟨elf, new, header, magic, create, build⟩ := builds
  rw [exec, header]
  simp only [magic, ne_eq, not_true_eq_false, if_false, bind_ok]
  constructor
  · rintro ⟨result', created, result, built, ran⟩
    obtain rfl := Except.ok.inj (create.symm.trans created)
    obtain rfl := Except.ok.inj (build.symm.trans built)
    obtain ⟨done, commit, ran⟩ := bind_ok.mp ran
    cases ran
    exact commit
  · intro commit
    exact ⟨_, create, _, build, bind_ok.mpr ⟨s', commit, rfl⟩⟩

/-- `exec` frees the old page table exactly if the kernel's pages had their entries, and the
process had memory below its size and nothing above it. -/
theorem exec_frees_iff {ip : Inode} {argv : List (List UInt8)} {sz : Nat} {top : TopPages}
    (inv : s.FrameInv) (used : (s.proc p).state ≠ .unused) (builds : s.Builds p ip argv sz u top) :
    (∃ s', s.exec p ip argv = .ok (true, s') ∧
      ∀ f ∈ (s.uvm p).pagetable.frames, f ∈ s'.kmem.freelist) ↔
      (s.proc p).top.Present (s.proc p).pagetable ∧ 0 < (s.proc p).sz ∧
        (s.uvm p).NothingAbove (s.proc p).sz := by
  obtain ⟨elf, new, _, _, create, build⟩ := id builds
  obtain ⟨_, mem, owns, _⟩ := inv.buildImage_owns used create build
  have condition := nothingAbove_congr (s.uvm p) ⟨u.kmem, (s.proc p).pagetable⟩ (s.proc p).sz
    (fun _ => rfl) (mem.mono Set.subset_union_left)
  rw [← condition]
  refine Iff.trans ?_ (and_congr_right' (Uvm.freeUser_iff owns (inv.pages p used)))
  constructor
  · rintro ⟨s', ran, freed⟩
    obtain ⟨m, free, rfl⟩ := execCommit_cases ((exec_commits builds).mp ran)
    obtain ⟨present, free⟩ := TopPages.procFreepagetable_ok.mp free
    exact ⟨present, m, free, freed⟩
  · rintro ⟨present, m, free, freed⟩
    have table := TopPages.procFreepagetable_ok.mpr ⟨present, free⟩
    exact ⟨_, (exec_commits builds).mpr (bind_ok.mpr ⟨m, table, rfl⟩), freed⟩

/-- The process is not the first one, and its pages are those of the kernel, those below its
size and those that `exit` finds: no live mapping starts inside a page while there is a page
for it. -/
structure ExitFinds (s : Machine) (p : Fin NPROC) : Prop where
  other : p ≠ initproc
  top : (s.proc p).top.Present (s.proc p).pagetable
  positive : 0 < (s.proc p).sz
  clean : Uvm.Clean (s.uvm p).leafAt (s.proc p).live
  found : ∀ vpn pte, (s.uvm p).leafAt vpn = some pte → (s.proc p).sz ≤ vpn * PGSIZE →
    (∃ map ∈ (s.proc p).live, map.Aligned ∧ map.Visits vpn) ∨ Uvm.Empty s.kmem pte

end Machine

/-- Steps of other processes. -/
abbrev OtherThan (p : Fin NPROC) (_ : MmapSys) (act : MmapAct) : Prop := act.proc ≠ some p

theorem untouched_of_steps {s t : MmapSys} {p : Fin NPROC} (run : mmapSystem.Reachable s)
    (used : (s.machine.proc p).state ≠ .unused)
    (more : mmapSystem.StepsUnder (OtherThan p) s t) : s.machine.Untouched t.machine p := by
  induction more with
  | refl => exact .refl _ p
  | step prior other step ih =>
      have here := run.steps prior fun _ => trivial
      exact ih.trans (step.untouched here (by rwa [ih.proc.state]) other)

/-- After any steps of other processes, the parent frees the process and gets all frames
back. -/
def Reaps (s : MmapSys) (p : Fin NPROC) : Prop :=
  ∀ t, mmapSystem.StepsUnder (OtherThan p) s t → ∃ done, t.machine.freeproc p = .ok done ∧
    ∀ f ∈ s.machine.ownFrames p, f ∈ done.kmem.freelist

theorem reaps_iff {s : MmapSys} {p : Fin NPROC} (run : mmapSystem.Reachable s)
    (used : (s.machine.proc p).state ≠ .unused) :
    Reaps s p ↔ (s.machine.proc p).top.Present (s.machine.proc p).pagetable ∧
      0 < (s.machine.proc p).sz ∧ (s.machine.uvm p).NothingAbove (s.machine.proc p).sz := by
  constructor
  · intro reaps
    exact (Machine.freeproc_iff (frameInv_of_reachable run) used).mp (reaps s .refl)
  · intro condition t more
    have untouched := untouched_of_steps run used more
    have inv := frameInv_of_reachable (run.steps more fun _ => trivial)
    rw [← Machine.ownFrames_same untouched.proc]
    refine (Machine.freeproc_iff inv (by rwa [untouched.proc.state])).mpr ?_
    rw [untouched.proc.sz, untouched.proc.top, untouched.proc.pagetable]
    refine condition.imp_right (And.imp_right
      (Machine.nothingAbove_congr _ _ _ (fun vpn => ?_) ?_).mpr)
    · rw [Machine.uvm, untouched.proc.pagetable]
      rfl
    · exact untouched.mem.mono fun f own => Machine.mem_ownFrames used (.inl own)

/-- `exit` returns, and every frame of the page table is then free or left to the parent. -/
def ExitReleases (s : MmapSys) (p : Fin NPROC) : Prop :=
  ∃ machine, s.machine.exit p = .ok machine ∧
    (∀ f ∈ (s.machine.uvm p).pagetable.frames,
      f ∈ machine.kmem.freelist ∨ f ∈ (machine.uvm p).pagetable.frames) ∧
    Reaps { s with machine := machine } p

/-- The ends of live mappings. -/
theorem vend_of_run {s : MmapSys} (run : mmapSystem.Reachable s) (p : Fin NPROC)
    {map : MapInfo} (live : map ∈ (s.machine.proc p).live) : map.vend ≤ MAXVA := by
  have bound := maps_of_run (P := fun _ map => map.vend ≤ MAXVA) (fun _ => Nat.zero_le _)
    (fun below => below) (fun {_ _ _ length _ _ _ _ i _} _ => ?_)
    (fun {_ _ addr length i} _ low sel _ below => ?_) run
  · obtain ⟨i, _, rfl⟩ := Proc.mem_live.mp live
    exact bound p i
  · have index := i.isLt
    have bits := length.isLt
    have size := uint64_eq length
    simp only [Machine.newMap, pgRoundUp, pgRoundDown]
    simp only [MMAP_VSTART, MMAP_NUM, MMAP_SIZE, PGSIZE, MAXVA] at index ⊢
    split at size <;> omega
  · have high := mapSel_lt sel
    unfold Machine.cutMap
    dsimp only
    split
    · unfold pgRoundDown at high
      simp only [MMAP_VEND, MMAP_VSTART, MMAP_NUM, MMAP_SIZE, PGSIZE, MAXVA] at high ⊢
      omega
    · exact below

/-- `exit` and the later `freeproc` release everything exactly if they find all pages. -/
theorem exitReleases_iff {s : MmapSys} {p : Fin NPROC} {shut : Machine}
    (run : mmapSystem.Reachable s) (running : (s.machine.proc p).state = .running)
    (files : s.machine.exitFiles p = .ok shut) : ExitReleases s p ↔ s.machine.ExitFinds p := by
  have inv := frameInv_of_reachable run
  have used : (s.machine.proc p).state ≠ .unused := by
    rw [running]
    simp
  have owns := inv.owns used
  have pages := inv.pages p used
  have same := Machine.exitFiles_same files
  by_cases other : p = initproc
  · refine iff_of_false ?_ fun finds => finds.other other
    rintro ⟨machine, ran, -⟩
    exact ((Machine.exit_ok files).mp ran).1 other
  -- the zombie that is left after some pages are unmapped
  have gone : ∀ {u}, (s.machine.uvm p).dedupAll (s.machine.proc p).live = .ok u →
      (Reaps { s with machine := shut.gone p u } p ↔ (s.machine.proc p).top.Present u.pagetable ∧
        0 < (s.machine.proc p).sz ∧ u.NothingAbove (s.machine.proc p).sz) := by
    intro u dedup
    obtain ⟨state, sz, top⟩ := Machine.gone_proc (s := shut) (p := p) (u := u)
    have ran := (Machine.exit_ok files).mpr ⟨other, u, dedup, rfl⟩
    have next : mmapSystem.Reachable { s with machine := shut.gone p u } :=
      run.step trivial (.exit running ran)
    have table : ((shut.gone p u).proc p).pagetable = u.pagetable :=
      congrArg Uvm.pagetable (Machine.gone_uvm (s := shut) (p := p) (u := u))
    rw [reaps_iff next (by rw [state]; simp), Machine.gone_uvm, table, sz, top, (same.procs p).sz,
      (same.procs p).top]
  have leaf : ∀ map ∈ (s.machine.proc p).live, ∀ vpn pte, map.Visits vpn →
      (s.machine.uvm p).leafAt vpn = some pte → pte.bare = false := by
    intro _ _ vpn pte _ found
    rcases pages.mapped found with below | ⟨_, _, user, _⟩
    · obtain ⟨pte', found', readable, _⟩ := pages.heap vpn below
      cases found.symm.trans found'
      simp [Pte.bare, readable]
    · simp [Pte.bare, user]
  by_cases clean : Uvm.Clean (s.machine.uvm p).leafAt (s.machine.proc p).live
  swap
  · refine iff_of_false ?_ fun finds => clean finds.clean
    rintro ⟨machine, ran, released, _⟩
    obtain ⟨_, u, dedup, rfl⟩ := (Machine.exit_ok files).mp ran
    obtain ⟨f, own, fresh, lost⟩ := Uvm.dedupAll_loses owns clean dedup
    rw [Machine.gone_uvm] at released
    rcases released f own with free | kept
    · have counted := (lost.keeps.taken f (.inr (Set.mem_insert f _))).1
      rw [(lost.keeps.free f free).1] at counted
      cases counted
    · exact lost.apart f kept (Set.mem_insert f _)
  obtain ⟨u, dedup, shrinks, frees, leaves⟩ := Uvm.dedupAll_returns owns clean
    (fun map live => vend_of_run run p live) leaf
  have left : u.NothingAbove (s.machine.proc p).sz ↔ ∀ vpn pte,
      (s.machine.uvm p).leafAt vpn = some pte → (s.machine.proc p).sz ≤ vpn * PGSIZE →
      (∃ map ∈ (s.machine.proc p).live, map.Aligned ∧ map.Visits vpn) ∨
        Uvm.Empty s.machine.kmem pte := by
    have content : ∀ {vpn pte}, u.leafAt vpn = some pte →
        (Uvm.Empty u.kmem pte ↔ Uvm.Empty s.machine.kmem pte) := by
      intro vpn pte found
      unfold Uvm.Empty
      rw [shrinks.mem (.inl (Uvm.frame_of_leaf found))]
      rfl
    constructor
    · intro nothing vpn pte found above
      by_cases visited : ∃ map ∈ (s.machine.proc p).live, map.Aligned ∧ map.Visits vpn
      · exact .inl visited
      · have kept : u.leafAt vpn = some pte := by rw [leaves, if_neg visited, found]
        exact .inr ((content kept).mp (nothing vpn pte kept above))
    · intro found vpn pte kept above
      have entry := leaves vpn
      rw [kept] at entry
      split at entry
      · cases entry
      · next visited =>
        exact (content kept).mpr ((found vpn pte entry.symm above).resolve_left visited)
  constructor
  · rintro ⟨machine, ran, _, reaps⟩
    obtain ⟨_, u', dedup', rfl⟩ := (Machine.exit_ok files).mp ran
    cases dedup.symm.trans dedup'
    obtain ⟨present, positive, nothing⟩ := (gone dedup).mp reaps
    exact ⟨other, (TopPages.present_congr frees.tables).mp present, positive, clean, left.mp nothing⟩
  · intro finds
    refine ⟨_, (Machine.exit_ok files).mpr ⟨other, u, dedup, rfl⟩, fun f own => ?_, (gone dedup).mpr
      ⟨(TopPages.present_congr frees.tables).mpr finds.top, finds.positive, left.mpr finds.found⟩⟩
    rw [Machine.gone_uvm]
    exact (frees.frames own).symm

/-- A process with memory, whose page table has the kernel's pages, gives it up without loss
exactly as follows: `exec` if it has no page above its size, `exit` and the later `freeproc` if
it is not the first process and they find all of them. -/
theorem teardown_iff {s : MmapSys} (run : mmapSystem.Reachable s) {p : Fin NPROC}
    (running : (s.machine.proc p).state = .running) :
    (∀ ip argv sz u top, s.machine.Builds p ip argv sz u top →
      ((∃ machine, s.machine.exec p ip argv = .ok (true, machine) ∧
          ∀ f ∈ (s.machine.uvm p).pagetable.frames, f ∈ machine.kmem.freelist) ↔
        (s.machine.proc p).top.Present (s.machine.proc p).pagetable ∧ 0 < (s.machine.proc p).sz ∧
          (s.machine.uvm p).NothingAbove (s.machine.proc p).sz)) ∧
      ∀ shut, s.machine.exitFiles p = .ok shut → (ExitReleases s p ↔ s.machine.ExitFinds p) := by
  have used : (s.machine.proc p).state ≠ .unused := by
    rw [running]
    simp
  exact ⟨fun _ _ _ _ _ builds => Machine.exec_frees_iff (frameInv_of_reachable run) used builds,
    fun _ files => exitReleases_iff run running files⟩

/-- A child with memory and a page of its file exits, and its parent frees everything. -/
theorem teardown_firstMapping : ∃ s, mmapSystem.Reachable s ∧
    ((s.machine.uvm 1).leafAt (MMAP_VSTART / PGSIZE)).isSome ∧ ExitReleases s 1 := by
  obtain ⟨s, run, seen⟩ := reachable_after
    [(0, .fork), (1, .mmap 8192 1 1 0), (1, .sbrk 4096), (1, .access MMAP_VSTART none)]
    (fun s => ((s.machine.proc 1).state, (s.machine.proc 1).sz,
      (s.machine.proc 1).pagetable.leaves.keys,
      (s.machine.proc 1).live.map fun map => (map.vstart, map.vend),
      ((s.machine.proc 1).pagetable.reaches TRAMPOLINE, (s.machine.proc 1).top.trampoline),
      ((s.machine.proc 1).pagetable.reaches TRAPFRAME, (s.machine.proc 1).top.trapframe.isSome),
      (s.machine.exitFiles 1).toOption.isSome))
    (.running, 4096, [MMAP_VSTART / PGSIZE, 0], [(MMAP_VSTART, MMAP_VSTART + 8192)], (true, true),
      (true, true), true) rfl
  simp only [Prod.mk.injEq] at seen
  obtain ⟨running, size, pages, maps, trampoline, trapframe, closes⟩ := seen
  have files := ok_getD closes s.machine
  obtain ⟨map, live, bounds⟩ := List.map_eq_singleton_iff.mp maps
  obtain ⟨start, stop⟩ := Prod.mk.inj bounds
  have aligned : map.Aligned := by
    rw [MapInfo.Aligned, start]
    rfl
  have resident : ∀ vpn, ((s.machine.uvm 1).leafAt vpn).isSome ↔ vpn = MMAP_VSTART / PGSIZE ∨ vpn = 0 := by
    intro vpn
    rw [Uvm.leafAt, AList.lookup_isSome, AList.mem_keys]
    change vpn ∈ (s.machine.proc 1).pagetable.leaves.keys ↔ _
    rw [pages, List.mem_pair]
  refine ⟨s, run, (resident _).mpr (.inl rfl), ((teardown_iff run running).2 _ files).mpr
    ⟨by decide, ⟨trampoline, trapframe⟩, ?_, ?_, ?_⟩⟩
  · rw [size]
    decide
  · intro before other after split unaligned
    have listed : other ∈ [map] := by
      rw [← live, split]
      simp
    rw [List.mem_singleton.mp listed] at unaligned
    exact absurd aligned unaligned
  · intro vpn pte found above
    rw [size] at above
    left
    refine ⟨map, by simp [live], aligned, (pages_pagesBetween aligned).mpr ?_⟩
    rw [start, stop]
    rcases (resident vpn).mp (by simp [found]) with rfl | rfl
    · decide
    · simp at above

/-- A page that a child has touched after it was unmapped makes its parent panic. -/
theorem teardown_panics : ∃ s, mmapSystem.Reachable s ∧ (s.machine.proc 1).state = .running ∧
    ∃ machine, s.machine.exit 1 = .ok machine ∧
      machine.freeproc 1 = .error (.panic "freewalk: leaf") := by
  obtain ⟨s, run, seen⟩ := reachable_after
    [(0, .fork), (1, .mmap 8192 1 1 0), (1, .sbrk 4096), (1, .munmap MMAP_VSTART 4096),
      (1, .access MMAP_VSTART none)]
    (fun s => ((s.machine.proc 1).state, (s.machine.exit 1).map fun m => m.freeproc 1))
    (.running, .ok (.error (.panic "freewalk: leaf"))) rfl
  simp only [Prod.mk.injEq] at seen
  obtain ⟨running, exits⟩ := seen
  obtain ⟨machine, ran, panics⟩ := map_ok.mp exits
  exact ⟨s, run, running, machine, ran, panics⟩

end Riscv2os.Xv7
