import Riscv2os.Xv7.MunmapPages

/-!
# Processes do not touch the memory of each other

Whatever a process does, the entries of the process table and the frames of every other
process stay as they are.
-/

namespace Riscv2os.Xv7

open Riscv2os.Std

/-- The process that acts. -/
def MmapAct.proc : MmapAct → Option (Fin NPROC)
  | .openFile p .. | .dup p .. | .close p .. | .mmap p .. | .munmap p .. | .access p .. => some p
  | .copyOut p .. | .sbrk p .. | .exec p | .fork p | .exit p | .reap p => some p
  | .write _ => none

namespace Machine

variable {s s' s'' : Machine} {p q np : Fin NPROC}

/-- The frames of one process. -/
def ownFrames (s : Machine) (q : Fin NPROC) : Set Frame :=
  {f | ∃ o : Owner, o.proc = q ∧ s.frameOf o = some f}

theorem ownFrames_subset (other : q ≠ p) : s.ownFrames q ⊆ s.restFrames p := by
  rintro f ⟨o, rfl, found⟩
  exact .inr ⟨o, other, found⟩

theorem ownFrames_frames : s.ownFrames q ⊆ s.frames := by
  rintro f ⟨o, _, found⟩
  exact ⟨o, found⟩

/-- A used process owns the frames of its page table and its trap frame. -/
theorem mem_ownFrames (used : (s.proc q).state ≠ .unused) {f : Frame}
    (inside : f ∈ (s.proc q).pagetable.frames ∨ f = (s.proc q).tf) : f ∈ s.ownFrames q := by
  rcases inside with ⟨place, found⟩ | rfl
  · exact ⟨.table q place, rfl, (if_neg used).trans found⟩
  · exact ⟨.tf q, rfl, if_neg used⟩

theorem ownFrames_same (same : SameMemory (s.proc q) (s'.proc q)) : s'.ownFrames q = s.ownFrames q := by
  ext f
  constructor
  · rintro ⟨o, rfl, found⟩
    exact ⟨o, rfl, by rwa [frameOf_same same] at found⟩
  · rintro ⟨o, rfl, found⟩
    exact ⟨o, rfl, by rwa [frameOf_same same]⟩

/-- The memory of a process is as it was. -/
structure Untouched (s s' : Machine) (q : Fin NPROC) : Prop where
  proc : SameMemory (s.proc q) (s'.proc q)
  mem : Set.EqOn s'.kmem.mem s.kmem.mem (s.ownFrames q)

namespace Untouched

theorem refl (s : Machine) (q : Fin NPROC) : Untouched s s q := ⟨.refl _, fun _ _ => rfl⟩

theorem trans (first : Untouched s s' q) (second : Untouched s' s'' q) : Untouched s s'' q where
  proc := first.proc.trans second.proc
  mem := by
    have mem := second.mem
    rw [ownFrames_same first.proc] at mem
    exact mem.trans first.mem

/-- What is done to files. -/
theorem ofSames (same : SameMemories s s') : Untouched s s' q :=
  ⟨same.procs q, fun _ _ => by rw [same.kmem]⟩

/-- What another process does to its own memory. -/
theorem ofRest (other : q ≠ p) (proc : s'.proc q = s.proc q)
    (mem : Set.EqOn s'.kmem.mem s.kmem.mem (s.restFrames p)) : Untouched s s' q :=
  ⟨by rw [proc]; exact .refl _, mem.mono (ownFrames_subset other)⟩

/-- Another entry of the process table changes. -/
theorem updateProc (other : q ≠ p) (change : Proc → Proc) :
    Untouched s (s.updateProc p change) q :=
  .ofRest other (Function.update_of_ne other ..) fun _ _ => rfl

end Untouched

theorem withUvm_untouched {u : Uvm} (other : q ≠ p)
    (mem : Set.EqOn u.kmem.mem s.kmem.mem (s.restFrames p)) : Untouched s (s.withUvm p u) q :=
  .ofRest other (Function.update_of_ne other ..) mem

theorem kill_untouched (other : q ≠ p) : Untouched s (s.kill p) q :=
  .updateProc other _

/-- A page fault. -/
theorem pageFault_untouched {va : Nat} (inv : s.FrameInv) (used : (s.proc p).state ≠ .unused)
    (other : q ≠ p) (ran : s.pageFault p va = .ok s') : Untouched s s' q := by
  rcases pageFault_cases ran with rfl | ⟨i, f, mem, m, mapped, u, faults, mapping, rfl⟩
  · exact kill_untouched other
  obtain ⟨fresh, allocated, same⟩ := (inv.owns used).kalloc faults.free
  have filled : (s.filled p va i f mem m).Owns
      (insert (filePte ((s.proc p).minfo i) mem).pa (s.restFrames p)) :=
    allocated.setPage (f := mem) (s.filePage f ((s.proc p).minfo i) (pgRoundDown va))
  obtain ⟨kept, spec⟩ := Uvm.mappages_spec filled fresh mapping
  have untouched : Set.EqOn u.kmem.mem s.kmem.mem (s.restFrames p) := by
    intro g inside
    have apart : g ≠ mem := by
      rintro rfl
      exact fresh inside
    have before : m.mem g = s.kmem.mem g := same (.inr inside)
    rw [kept (.inr (Set.mem_insert_of_mem _ inside)), ← before]
    exact Function.update_of_ne apart ..
  cases mapped with
  | true => exact withUvm_untouched other untouched
  | false =>
      refine (withUvm_untouched other ?_).trans (kill_untouched other)
      exact ((spec.1.kfree fresh).2.mono Set.subset_union_right).trans untouched

theorem access_untouched {va : Nat} {byte : Option UInt8} (inv : s.FrameInv)
    (used : (s.proc p).state ≠ .unused) (other : q ≠ p) (ran : s.access p va byte = .ok s') :
    Untouched s s' q := by
  rcases access_cases ran with ⟨_, _, rfl⟩ | ⟨b, pte, _, found, _, rfl⟩ | fault
  · exact .refl s' q
  · refine withUvm_untouched other fun g inside => ?_
    have apart : g ≠ pte.pa := by
      rintro rfl
      exact (inv.owns used).apart pte.pa (Uvm.frame_of_leaf found) inside
    simp [Kmem.setPage, apart]
  · exact pageFault_untouched inv used other fault

theorem growproc_untouched {n : BitVec 32} {done : Bool} (inv : s.FrameInv)
    (used : (s.proc p).state ≠ .unused) (other : q ≠ p) (ran : s.growproc p n = .ok (done, s')) :
    Untouched s s' q := by
  have owns := inv.owns used
  have pages := inv.pages p used
  have fits : (s.proc p).sz % 2 ^ 32 = (s.proc p).sz := Nat.mod_eq_of_lt (by
    have := pages.sz_le owns
    omega)
  have resized : ∀ {t : Machine} {sz : Nat}, Untouched s t q →
      Untouched s (t.updateProc p fun proc => { proc with sz := sz }) q := fun untouched =>
    untouched.trans (.updateProc other _)
  rcases growproc_cases ran with ⟨sz, u, alloc, result⟩ | ⟨sz, u, dealloc, rfl⟩ | rfl
  · have small : ((s.proc p).sz % 2 ^ 32 + n.toNat) % 2 ^ 32 < 2 ^ 64 :=
      lt_of_lt_of_le (Nat.mod_lt _ (by decide)) (by decide)
    have untouched := withUvm_untouched (p := p) other (Uvm.uvmalloc_spec owns small alloc).2.1
    rcases result with ⟨_, rfl⟩ | ⟨_, rfl⟩
    · exact untouched
    · exact resized untouched
  · rw [fits] at dealloc
    obtain ⟨_, shrinks⟩ := UserPages.uvmdealloc (u := s.uvm p) pages owns dealloc
    exact resized (withUvm_untouched other (shrinks.mem.mono Set.subset_union_right))
  · exact resized (.refl s q)

theorem updateMap_untouched {i : Fin MMAP_NUM} {change : MapInfo → MapInfo} :
    Untouched s (s.updateMap p i change) q := by
  refine ⟨?_, fun _ _ => rfl⟩
  by_cases same : q = p
  · subst same
    simp only [updateMap, Machine.updateProc, Function.update_self]
    exact ⟨rfl, rfl, rfl, rfl, rfl⟩
  · simp only [updateMap, Machine.updateProc, Function.update_of_ne same]
    exact .refl _

theorem sysMmap_untouched {addr : Nat} {length prot flags fd offset : BitVec 32} {va : Option Nat}
    (ran : s.sysMmap p addr length prot flags fd offset = .ok (va, s')) : Untouched s s' q := by
  rcases sysMmap_cases ran with ⟨_, rfl⟩ | ⟨f, i, _, ftable, _, _, _, _, _, rfl⟩
  · exact .refl s' q
  · exact (Untouched.ofSames (.ftable s ftable)).trans updateMap_untouched

theorem sysMunmap_untouched {addr : Nat} {length : BitVec 32} {done : Bool} (inv : s.FrameInv)
    (used : (s.proc p).state ≠ .unused)
    (backed : ∀ i, ((s.proc p).minfo i).used = true → ∃ f, ((s.proc p).minfo i).file = some f)
    (other : q ≠ p) (ran : s.sysMunmap p addr length = .ok (done, s')) : Untouched s s' q := by
  cases done with
  | false =>
      rcases sysMunmap_cases ran with ⟨_, rfl⟩ | ⟨_, _, impossible, _⟩
      · exact .refl s' q
      · cases impossible
  | true =>
      obtain ⟨i, f, looped, _, _, _, _, cleared, final⟩ := sysMunmap_cleared inv used backed ran
      have loop : Untouched s looped q :=
        .ofRest other (cleared.others q other) (cleared.shrinks.mem.mono Set.subset_union_right)
      rcases final with ⟨_, _, ftable, _, rfl⟩ | ⟨_, rfl⟩
      · exact (loop.trans (.ofSames (.ftable looped ftable))).trans updateMap_untouched
      · exact loop.trans updateMap_untouched

theorem copyOut_untouched {dstva : Nat} {src : List UInt8} {done : Bool} (inv : s.FrameInv)
    (used : (s.proc p).state ≠ .unused) (other : q ≠ p) (ran : s.copyOut p dstva src = (done, s')) :
    Untouched s s' q := by
  obtain ⟨⟨copied, u⟩, copy⟩ : ∃ result, (s.uvm p).copyout dstva src = result := ⟨_, rfl⟩
  unfold Machine.copyOut at ran
  rw [copy] at ran
  cases ran
  exact withUvm_untouched other (Uvm.copyout_writes (inv.owns used) copy).mem

/-- The loop of `exit` over the mappings. -/
theorem exitMaps_untouched (inv : s.FrameInv) (used : (s.proc p).state ≠ .unused) (other : q ≠ p)
    (ran : s.exitMaps p = .ok s') : Untouched s s' q := by
  refine (foldlM_invariant (fun t => t.FrameInv ∧ (t.proc p).state = (s.proc p).state ∧
    Untouched s t q) ?_ ⟨inv, rfl, .refl s q⟩ ran).2.2
  rintro i t next ⟨invT, stateT, untouched⟩ ran
  split at ran
  · next isUsed =>
    obtain ⟨u, dedup, ran⟩ := bind_ok.mp ran
    cases ran
    have high : 2 ^ 36 ≤ ((t.proc p).minfo i).vstart := by
      rcases invT.maps p i with high | ⟨unused, _⟩
      · exact high
      · rw [isUsed] at unused
        cases unused
    obtain ⟨cut, isCut⟩ : ∃ cut, cut = t.updateMap p i fun map => { map with used := false } := ⟨_, rfl⟩
    rw [← isCut] at dedup ⊢
    have state : (cut.proc p).state = (s.proc p).state := by
      rw [isCut]
      simp [Machine.updateMap, Machine.updateProc, stateT]
    have invCut : cut.FrameInv := by
      rw [isCut]
      exact invT.updateMap (.inl high)
    have usedCut : (cut.proc p).state ≠ .unused := by rwa [state]
    have highCut : 2 ^ 36 ≤ ((cut.proc p).minfo i).vstart := by
      rw [isCut]
      simpa [Machine.updateMap, Machine.updateProc] using high
    refine ⟨invCut.mmapDedup usedCut highCut dedup, ?_, ?_⟩
    · rw [(Kept.withUvm cut p u).state]
      exact state
    · have shrinks := (Uvm.mmapDedup_shrinks (invCut.owns usedCut) dedup).1
      refine (untouched.trans ?_).trans (withUvm_untouched other (shrinks.mem.mono Set.subset_union_right))
      rw [isCut]
      exact updateMap_untouched
  · cases ran
    exact ⟨invT, stateT, untouched⟩

theorem exit_untouched (inv : s.FrameInv) (used : (s.proc p).state ≠ .unused) (other : q ≠ p)
    (ran : s.exit p = .ok s') : Untouched s s' q := by
  obtain ⟨_, shut, looped, files, maps, rfl⟩ := exit_cases ran
  have same := exitFiles_same files
  have usedS : (shut.proc p).state ≠ .unused := by rwa [(same.procs p).state]
  have loop := exitMaps_untouched (inv.of_sames same) usedS other maps
  refine ((Untouched.ofSames same).trans loop).trans ?_
  exact .ofRest other (Function.update_of_ne other ..) fun _ _ => rfl

theorem exec_untouched {ip : Inode} {argv : List (List UInt8)} {done : Bool} (inv : s.FrameInv)
    (used : (s.proc p).state ≠ .unused) (other : q ≠ p) (ran : s.exec p ip argv = .ok (done, s')) :
    Untouched s s' q := by
  rcases exec_cases ran with rfl | ⟨u, top, elf, built, sz, u', create, build, result⟩
  · exact .refl s' q
  obtain ⟨owns, mem, old, _⟩ := inv.buildImage_owns used create build
  rcases result with ⟨_, m, free, rfl⟩ | ⟨_, commit⟩
  · refine .ofRest other rfl ?_
    have freed := (TopPages.procFreepagetable_keeps owns free).2
    exact (freed.mono Set.subset_union_right).trans (mem.mono Set.subset_union_right)
  · obtain ⟨m, free, rfl⟩ := execCommit_cases commit
    refine .ofRest other (Function.update_of_ne other ..) ?_
    have freed := (TopPages.procFreepagetable_keeps old free).2
    exact (freed.mono Set.subset_union_right).trans (mem.mono Set.subset_union_right)

theorem freeproc_untouched (inv : s.FrameInv) (used : (s.proc p).state ≠ .unused) (other : q ≠ p)
    (ran : s.freeproc p = .ok s') : Untouched s s' q := by
  obtain ⟨m, free, rfl⟩ := freeproc_cases ran
  obtain ⟨owns, fresh⟩ := inv.owned.owns used
  obtain ⟨owns, freed⟩ := owns.kfree fresh
  have walked := (TopPages.procFreepagetable_keeps owns free).2
  refine ⟨by rw [show (({ s with kmem := m } : Machine).updateProc p _).proc q = s.proc q from
    Function.update_of_ne other ..]; exact .refl _, ?_⟩
  have others : s.ownFrames q ⊆ s.othersFrames p := by
    rintro f ⟨o, rfl, found⟩
    exact ⟨o, other, found⟩
  exact (walked.mono others).trans (freed.mono (others.trans Set.subset_union_right))

theorem fork_untouched (inv : s.FrameInv) (active : s.Active p) (other : q ≠ np)
    (ran : s.fork p = .ok (some np, s')) : Untouched s s' q := by
  obtain ⟨u, tf, forked⟩ := fork_forked inv active ran
  refine ⟨by rw [forked.others q other]; exact .refl _, ?_⟩
  rw [forked.kmem]
  exact forked.mem.mono ownFrames_frames

theorem forkFails_untouched (inv : s.FrameInv) (used : (s.proc q).state ≠ .unused)
    (parent : (s.proc p).state ≠ .unused) (ran : s.fork p = .ok (none, s')) : Untouched s s' q := by
  rcases fork_none_cases ran with ⟨_, rfl⟩ | ⟨np, alloc, u, found, copy, freed⟩
  · exact .refl _ q
  obtain ⟨tf, top, unused, newTf, owns, empty, mem, ftable, procs⟩ := allocproc_owns inv found
  have apart : p ≠ np := by
    rintro rfl
    exact parent unused
  have other : q ≠ np := by
    rintro rfl
    exact used unused
  rw [procs, Function.update_of_ne apart] at copy
  have start : (alloc.uvm np).CopyOf (s.proc p).pagetable 0 := by
    refine ⟨fun vpn below => absurd below (Nat.not_lt_zero vpn), fun vpn _ => ?_⟩
    simp [Uvm.leafAt, empty]
  obtain ⟨ownsU, memU, _⟩ := Uvm.copyPages_spec
    ((table_subset parent).trans (Set.subset_insert tf _)) owns start copy
  obtain ⟨m, free, rfl⟩ := freeproc_cases freed
  have child : (alloc.withUvm np u).proc np = { s.proc np with
      tf := tf, pagetable := u.pagetable, top := top } := by
    simp [withUvm, updateProc, procs]
  rw [child] at free
  obtain ⟨ownsF, memF⟩ := ownsU.kfree newTf
  have memM := (TopPages.procFreepagetable_keeps ownsF free).2
  refine ⟨?_, ?_⟩
  · have same : (({ alloc.withUvm np u with kmem := m } : Machine).updateProc np fun proc =>
        { proc with
          state := .unused, killed := false, sz := 0, pagetable := ⟨0, ∅, ∅⟩
          top := {} }).proc q = s.proc q := by
      simp [withUvm, updateProc, procs, other]
    rw [same]
    exact .refl _
  · have all : Set.EqOn m.mem s.kmem.mem s.frames :=
      (memM.trans (memF.mono Set.subset_union_right)).trans
        ((memU.mono (Set.subset_insert tf _)).trans mem)
    exact all.mono ownFrames_frames

end Machine

/-- A step of one process leaves the memory of every other process as it is. -/
theorem MmapStep.untouched {s next : MmapSys} {act : MmapAct} (step : MmapStep s act next)
    (run : mmapSystem.Reachable s) {q : Fin NPROC} (used : (s.machine.proc q).state ≠ .unused)
    (other : act.proc ≠ some q) : s.machine.Untouched next.machine q := by
  have inv := frameInv_of_reachable run
  have running : ∀ {p}, s.machine.Active p → (s.machine.proc p).state ≠ .unused := by
    intro p active
    rw [active.1]
    simp
  have apart : ∀ {p}, act.proc = some p → q ≠ p := by
    rintro p actor rfl
    exact other actor
  cases step with
  | openFile _ _ ran =>
      exact .ofSames ((Machine.SameMemories.ftable _ _).trans (Machine.openInode_same ran))
  | dup _ ran => exact .ofSames (Machine.sysDup_same ran)
  | close _ ran => exact .ofSames (Machine.sysClose_same ran)
  | write => exact .ofSames (.ftable _ _)
  | mmap _ _ ran => exact Machine.sysMmap_untouched ran
  | mmapFails _ ran => exact Machine.sysMmap_untouched ran
  | munmap active ran =>
      exact Machine.sysMunmap_untouched inv (running active) (map_file_of_run run _) (apart rfl) ran
  | access active ran => exact Machine.access_untouched inv (running active) (apart rfl) ran
  | copyOut active ran => exact Machine.copyOut_untouched inv (running active) (apart rfl) ran
  | sbrk active ran => exact Machine.growproc_untouched inv (running active) (apart rfl) ran
  | exec active ran => exact Machine.exec_untouched inv (running active) (apart rfl) ran
  | @fork _ np _ active ran =>
      refine Machine.fork_untouched inv active ?_ ran
      rintro rfl
      obtain ⟨_, _, forked⟩ := Machine.fork_forked inv active ran
      exact used forked.fresh
  | forkFails active ran => exact Machine.forkFails_untouched inv used (running active) ran
  | exit alive ran => exact Machine.exit_untouched inv (by rw [alive]; simp) (apart rfl) ran
  | reap zombie ran => exact Machine.freeproc_untouched inv (by rw [zombie]; simp) (apart rfl) ran

end Riscv2os.Xv7
