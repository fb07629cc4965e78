import Riscv2os.Xv7.MmapArguments
import Riscv2os.Xv7.MunmapPages

/-!
# What `munmap` leaves alone

`sys_munmap` clears every page from the start of the page of its address on, for the
length that the caller gives. Nothing else changes; whether these pages are all of the
mapping that the address is in is up to the caller.
-/

namespace Riscv2os.Xv7

open Riscv2os.Std

namespace Machine

variable {s s' : Machine} {p : Fin NPROC}

/-- The live mapping `i` contains an address. -/
def MapsAt (s : Machine) (p : Fin NPROC) (i : Fin MMAP_NUM) (va : Nat) : Prop :=
  ((s.proc p).minfo i).used = true ∧ ((s.proc p).minfo i).vstart ≤ va ∧ va < ((s.proc p).minfo i).vend

/-- The live mapping `i` contains an address of a page. -/
def MapsPage (s : Machine) (p : Fin NPROC) (i : Fin MMAP_NUM) (vpn : Nat) : Prop :=
  ∃ va, va / PGSIZE = vpn ∧ s.MapsAt p i va

/-- A call of `munmap` has worked on the mapping that contains `addr` only. -/
structure OnlyUnmaps (s s' : Machine) (p : Fin NPROC) (addr : Nat) (length : BitVec 32) : Prop where
  /-- An entry that changes is one of a page of that mapping. -/
  inside : ∀ {vpn}, (s'.uvm p).leafAt vpn ≠ (s.uvm p).leafAt vpn →
    ∃ i, s.MapsAt p i addr ∧ s.MapsPage p i vpn
  /-- The pages of the heap and of other mappings keep their translation and content. -/
  kept : ∀ {vpn pte}, (s.uvm p).leafAt vpn = some pte →
    (vpn * PGSIZE < (s.proc p).sz ∨ ∃ i, s.MapsPage p i vpn ∧ ¬ s.MapsAt p i addr) →
      (s'.uvm p).leafAt vpn = some pte ∧ s'.kmem.mem pte.pa = s.kmem.mem pte.pa
  trapframe : (s'.proc p).tf = (s.proc p).tf ∧ s'.kmem.mem (s.proc p).tf = s.kmem.mem (s.proc p).tf
  /-- The loop stays below the pages of the trap frame and the trampoline. -/
  top : MMAP_VSTART ≤ addr → addr ≤ MMAP_VEND →
    ∀ va ∈ pagesBetween (pgRoundDown addr) (munmapStop addr length), va < TRAPFRAME
  others : ∀ q, q ≠ p → s'.proc q = s.proc q

/-- The pages that the loop of `sys_munmap` finds all belong to the mapping that contains
`addr`, and to no other one. -/
def RangeInside (s : Machine) (p : Fin NPROC) (addr : Nat) (length : BitVec 32) : Prop :=
  ∀ {i vpn}, MMAP_VSTART ≤ addr → addr ≤ MMAP_VEND → mapSel (pgRoundDown addr) = .ok i →
    ((s.proc p).minfo i).used = true → ((s.uvm p).leafAt vpn).isSome = true →
    addr / PGSIZE ≤ vpn → vpn * PGSIZE < munmapStop addr length →
      (∃ j, s.MapsAt p j addr ∧ s.MapsPage p j vpn) ∧
        ∀ j, s.MapsPage p j vpn → s.MapsAt p j addr

theorem munmap_belowTrapframe {addr : Nat} {length : BitVec 32} (low : MMAP_VSTART ≤ addr)
    (high : addr ≤ MMAP_VEND) {va : Nat}
    (listed : va ∈ pagesBetween (pgRoundDown addr) (munmapStop addr length)) : va < TRAPFRAME :=
  (Uvm.mem_pagesBetween listed).2.1.trans (munmapStop_bounds length low high).2.1

/-- A call of `munmap` that selects a live mapping is not rejected. -/
theorem sysMunmap_accepts {addr : Nat} {length : BitVec 32} {i : Fin MMAP_NUM} {done : Bool}
    (low : MMAP_VSTART ≤ addr) (high : addr ≤ MMAP_VEND) (sel : mapSel (pgRoundDown addr) = .ok i)
    (used : ((s.proc p).minfo i).used = true) (ran : s.sysMunmap p addr length = .ok (done, s')) :
    done = true := by
  rw [sysMunmap, if_neg (by omega)] at ran
  simp only [sel, bind_ok] at ran
  obtain ⟨_, selected, ran⟩ := ran
  cases selected
  simp only [used, Bool.not_true, Bool.false_eq_true, if_false, bind_ok] at ran
  obtain ⟨looped, _, ran⟩ := ran
  split at ran
  · rw [bind_ok] at ran
    obtain ⟨_, _, ran⟩ := ran
    rw [bind_ok] at ran
    obtain ⟨_, _, ran⟩ := ran
    cases ran
    rfl
  · cases ran
    rfl

/-- The memory after a call of `munmap` that is not rejected. -/
theorem munmap_memory {addr : Nat} {length : BitVec 32} (inv : s.FrameInv)
    (active : (s.proc p).state ≠ .unused)
    (backed : ∀ i, ((s.proc p).minfo i).used = true → ∃ f, ((s.proc p).minfo i).file = some f)
    (ran : s.sysMunmap p addr length = .ok (true, s')) :
    (∃ i, MMAP_VSTART ≤ addr ∧ addr ≤ MMAP_VEND ∧ mapSel (pgRoundDown addr) = .ok i ∧
      ((s.proc p).minfo i).used = true) ∧
      (s.uvm p).Shrinks (s'.uvm p) (s.restFrames p) ∧ (s'.proc p).tf = (s.proc p).tf ∧
      (∀ q, q ≠ p → s'.proc q = s.proc q) ∧
      ∀ vpn, (s'.uvm p).leafAt vpn =
        if addr / PGSIZE ≤ vpn ∧ vpn * PGSIZE < munmapStop addr length then none
        else (s.uvm p).leafAt vpn := by
  obtain ⟨i, f, looped, low, sel, used, _, cleared, final⟩ := sysMunmap_cleared inv active backed ran
  have high : addr ≤ MMAP_VEND := by
    have below := mapSel_lt sel
    unfold pgRoundDown at below
    simp only [PGSIZE, MMAP_VEND, MMAP_VSTART, MMAP_NUM, MMAP_SIZE] at below ⊢
    omega
  obtain ⟨_, aligned⟩ := FrameInv.pgRoundDown_window low
  have memory : s'.uvm p = looped.uvm p ∧ (s'.proc p).tf = (looped.proc p).tf ∧
      ∀ q, q ≠ p → s'.proc q = looped.proc q := by
    rcases final with ⟨_, _, ftable, _, rfl⟩ | ⟨_, rfl⟩ <;>
      exact ⟨by simp [uvm, updateMap, updateProc], by simp [updateMap, updateProc],
        fun q other => by simp [updateMap, updateProc, other]⟩
  refine ⟨⟨i, low, high, sel, used⟩, ?_, ?_, fun q other => ?_, fun vpn => ?_⟩
  · rw [memory.1]
    exact cleared.shrinks
  · rw [memory.2.1, cleared.own]
  · rw [memory.2.2 q other, cleared.others q other]
  · rw [memory.1, cleared.leaves]
    simp only [pages_pagesBetween aligned, Uvm.pgRoundDown_div]

end Machine

/-- A call of `munmap` that returns works on the mapping of its address only, when and
only when its range does not reach a page of another one. -/
theorem munmap_onlyUnmaps_iff {s : MmapSys} (run : mmapSystem.Reachable s) {p : Fin NPROC}
    (active : s.machine.Active p) {addr : Nat} {length : BitVec 32} {done : Bool} {machine : Machine}
    (ran : s.machine.sysMunmap p addr length = .ok (done, machine)) :
    s.machine.OnlyUnmaps machine p addr length ↔ s.machine.RangeInside p addr length := by
  have inv := frameInv_of_reachable run
  have backed := map_file_of_run run p
  have isUsed : (s.machine.proc p).state ≠ .unused := by
    rw [active.1]
    exact fun impossible => by cases impossible
  cases done with
  | false =>
      obtain rfl := Machine.sysMunmap_rejects ran
      constructor
      · intro _ i vpn low high sel used
        cases Machine.sysMunmap_accepts low high sel used ran
      · intro _
        exact ⟨fun changed => absurd rfl changed, fun found _ => ⟨found, rfl⟩, ⟨rfl, rfl⟩,
          fun low high va => Machine.munmap_belowTrapframe low high, fun _ _ => rfl⟩
  | true =>
      obtain ⟨⟨i, low, high, sel, used⟩, shrinks, tf, others, leaves⟩ :=
        Machine.munmap_memory inv isUsed backed ran
      constructor
      · intro only j vpn _ _ _ _ resident first last
        have gone := leaves vpn
        rw [if_pos ⟨first, last⟩] at gone
        obtain ⟨pte, found⟩ := Option.isSome_iff_exists.mp resident
        refine ⟨only.inside ?_, fun j maps => ?_⟩
        · rw [gone, found]
          exact fun impossible => by cases impossible
        · by_contra outside
          obtain ⟨still, _⟩ := only.kept found (.inr ⟨j, maps, outside⟩)
          rw [gone] at still
          cases still
      · intro range
        have same : ∀ {vpn pte}, (s.machine.uvm p).leafAt vpn = some pte →
            ¬ (addr / PGSIZE ≤ vpn ∧ vpn * PGSIZE < Machine.munmapStop addr length) →
            (machine.uvm p).leafAt vpn = some pte ∧
              machine.kmem.mem pte.pa = s.machine.kmem.mem pte.pa := by
          intro vpn pte found outside
          have entry := leaves vpn
          rw [if_neg outside, found] at entry
          exact ⟨entry, shrinks.mem (.inl (Uvm.frame_of_leaf entry))⟩
        refine ⟨?_, ?_, ⟨tf, ?_⟩, fun low high va => Machine.munmap_belowTrapframe low high, others⟩
        · intro vpn changed
          rw [leaves] at changed
          split at changed
          · next inside =>
            exact (range low high sel used (Option.isSome_iff_ne_none.mpr changed.symm) inside.1
              inside.2).1
          · exact absurd rfl changed
        · rintro vpn pte found (heap | ⟨j, maps, outside⟩)
          · refine same found ?_
            rintro ⟨first, _⟩
            have small := (inv.pages p isUsed).sz_le (inv.owns isUsed)
            simp only [PGSIZE, MMAP_VSTART] at heap first low
            omega
          · refine same found ?_
            rintro ⟨first, last⟩
            have resident : ((s.machine.uvm p).leafAt vpn).isSome = true := by rw [found]; rfl
            exact outside ((range low high sel used resident first last).2 j maps)
        · exact shrinks.mem (.inr (Set.mem_insert _ _))

/-- Unmapping the only page of a mapping. -/
theorem munmap_onlyUnmaps_firstMapping : ∃ machine,
    (firstMapping 4096 PROT_READ MAP_SHARED).machine.sysMunmap 0 MMAP_VSTART 4096 =
      .ok (true, machine) ∧
      (firstMapping 4096 PROT_READ MAP_SHARED).machine.OnlyUnmaps machine 0 MMAP_VSTART 4096 := by
  have ran : (firstMapping 4096 PROT_READ MAP_SHARED).machine.sysMunmap 0 MMAP_VSTART 4096 =
      .ok (true, _) := ok_mk_getD rfl firstFile.machine
  refine ⟨_, ran, (munmap_onlyUnmaps_iff (firstMapping_reachable trivial trivial) ⟨rfl, rfl⟩ ran).mpr ?_⟩
  intro i vpn _ _ _ _ resident
  cases resident

/-- With two mappings next to each other, unmapping two pages from the last page of the
first one on takes a page of the second. -/
theorem munmap_unmapsNeighbour :
    ¬ ∀ s, mmapSystem.Reachable s → ∀ p addr length done machine, s.machine.Active p →
      s.machine.sysMunmap p addr length = .ok (done, machine) →
        s.machine.OnlyUnmaps machine p addr length := by
  intro only
  have first : mmapSystem.Reachable (firstMapping 1048576 PROT_READ MAP_SHARED) :=
    firstMapping_reachable trivial trivial
  have second := first.step trivial (@MmapStep.mmap _ 0 0 4096 PROT_READ MAP_SHARED 0 0
    (MMAP_VSTART + 1048576) 1 _ _ ⟨rfl, rfl⟩ rfl (ok_mk_getD rfl firstFile.machine))
  have touched := second.step trivial (@MmapStep.access _ 0 (MMAP_VSTART + 1048576) none _ ⟨rfl, rfl⟩
    (ok_getD rfl firstFile.machine))
  have unmaps := only _ touched 0 (MMAP_VSTART + 1044480) 8192 true _ ⟨rfl, rfl⟩
    (ok_mk_getD rfl firstFile.machine)
  obtain ⟨still, _⟩ := @Machine.OnlyUnmaps.kept _ _ _ _ _ unmaps ((MMAP_VSTART + 1048576) / PGSIZE) _ rfl
    (.inr ⟨1, ⟨MMAP_VSTART + 1048576, rfl, rfl, by decide, by decide⟩,
      fun maps => absurd maps.2.1 (by decide)⟩)
  cases still

end Riscv2os.Xv7
