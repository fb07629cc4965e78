import Riscv2os.Xv7.ProcPagetable

/-!
# `fork` when memory runs out

`fork` with the whole page table of the child. If no frame is left for a page of the copy, `uvmcopy` takes
back the pages that it has mapped, and `freeproc` has the rest to free; it goes by the size of the child,
which is not set before the copy is complete.
-/

namespace Riscv2os.Xv7

open Riscv2os.Std

namespace Machine

variable {s s' alloc : Machine} {p np : Fin NPROC}

/-- A `fork` that failed has left no trace: the parent, the process table and the free frames are what they
were. -/
structure ForkUndone (s s' : Machine) (p : Fin NPROC) : Prop where
  parent : s'.proc p = s.proc p
  memory : ∀ f ∈ (s.proc p).pagetable.frames, s'.kmem.mem f = s.kmem.mem f
  slots : ∀ q, (s'.proc q).state = (s.proc q).state
  free : ∀ f, f ∈ s'.kmem.freelist ↔ f ∈ s.kmem.freelist

/-- With an unused entry and two free pages `allocproc` does not fail. -/
theorem allocproc_finds (slot : ∃ q, (s.proc q).state = .unused)
    (frames : 2 ≤ s.kmem.freelist.length) : s.allocproc ≠ .ok none := by
  intro failed
  unfold allocproc at failed
  split at failed
  next used =>
    obtain ⟨q, unused⟩ := slot
    exact List.find?_eq_none.mp used q (List.mem_finRange q) (by simpa using unused)
  split at failed
  next empty =>
    rw [Uvm.kalloc_none] at empty
    rw [empty] at frames
    cases frames
  · obtain ⟨_, _, result⟩ := bind_ok.mp failed
    cases result

end Machine

namespace Uvm

variable {u u' : Uvm}

/-- The loop of `uvmcopy` keeps the root of the new table. -/
theorem copyPages_root {old : PageTable} {count i : Nat} {copied : Bool}
    (ran : copyPages old count i u = .ok (copied, u')) : u'.pagetable.root = u.pagetable.root := by
  induction count generalizing u i with
  | zero =>
      cases ran
      rfl
  | succ count ih =>
      rw [copyPages, bind_ok] at ran
      obtain ⟨entry, _, ran⟩ := ran
      cases entry with
      | none =>
          simp only at ran
          split at ran <;> cases ran
      | some pte =>
          simp only at ran
          split at ran
          · obtain ⟨back, unmapped, ran⟩ := bind_ok.mp ran
            cases ran
            exact (uvmunmap_frees unmapped).root
          next pa m alloc =>
          obtain ⟨⟨mapped, next⟩, mapping, ran⟩ := bind_ok.mp ran
          have same := (mappages_tables mapping).1
          cases mapped with
          | false =>
              obtain ⟨back, unmapped, ran⟩ := bind_ok.mp ran
              cases ran
              exact (uvmunmap_frees unmapped).root.trans same
          | true => exact (ih ran).trans same

/-- `uvmunmap` of a page that has no entry. -/
theorem unmapPage_absent (u : Uvm) (va : Nat) (doFree : Bool) (low : va < MAXVA)
    (vacant : u.pagetable.lookup va = none) :
    ∃ text, u.unmapPage va doFree = .error (.panic text) := by
  have walked : u.pagetable.walk va = .ok none := by
    rw [PageTable.walk, if_neg (not_le.mpr low), vacant]
  rw [unmapPage, walked]
  by_cases reached : u.pagetable.reaches va = true
  · exact ⟨_, if_pos reached⟩
  · exact ⟨_, if_neg reached⟩

/-- If there is no frame for the first page, `uvmcopy` takes back a range that has no end. -/
theorem uvmcopy_first {old : PageTable} {sz : Nat} {pte : Pte} (positive : 0 < sz)
    (page : old.lookup 0 = some pte) (fresh : u.pagetable.leaves = ∅) (empty : u.kmem.freelist = []) :
    ∃ text, uvmcopy old u sz = .error (.panic text) := by
  obtain ⟨count, pages⟩ : ∃ count, (sz + PGSIZE - 1) / PGSIZE = count + 1 :=
    ⟨(sz + PGSIZE - 1) / PGSIZE - 1, by simp only [PGSIZE]; omega⟩
  have walked : old.walk 0 = .ok (some pte) := by
    rw [PageTable.walk, if_neg (by decide), page]
  have vacant : u.pagetable.lookup 0 = none := by
    rw [PageTable.lookup, fresh]
    rfl
  obtain ⟨text, unmapped⟩ := u.unmapPage_absent 0 true (by decide) vacant
  refine ⟨text, ?_⟩
  have range : u.uvmunmap 0 0 true = .error (.panic text) := by
    rw [uvmunmap, unmapPages, show pgRoundDown 0 = 0 from rfl, unmapped]
    rfl
  rw [uvmcopy, pages, copyPages]
  simp only [Nat.zero_mul, walked, kalloc_none.mpr empty, range]
  rfl

end Uvm

namespace Machine

variable {s s' : Machine} {p : Fin NPROC}

/-- When the trap frame and the root of the child exist, `fork` never returns -1 with everything undone,
whichever allocation fails: the page of the root stays allocated. -/
theorem fork_undone_never (inv : s.FrameInv) (used : (s.proc p).state ≠ .unused)
    (slot : ∃ q, (s.proc q).state = .unused) (frames : 2 ≤ s.kmem.freelist.length) :
    ¬ ∃ s', s.fork p = .ok (none, s') ∧ s.ForkUndone s' p := by
  rintro ⟨s', ran, undone⟩
  rcases fork_none_cases ran with ⟨failed, -⟩ | ⟨np, alloc, u, found, copy, freed⟩
  · exact allocproc_finds slot frames failed
  obtain ⟨unused, tf, m, start, top, first, created, rfl⟩ := allocproc_cases found
  have apart : p ≠ np := by
    rintro rfl
    exact used unused
  have parent : (s.proc p).pagetable.frames ⊆ insert tf s.frames :=
    (table_subset used).trans (Set.subset_insert tf _)
  obtain ⟨fresh, taken, _⟩ := inv.owned.keeps.kalloc first
  obtain ⟨owns, empty, _⟩ := FrameInv.procPagetable_owns taken created
  obtain ⟨rest, root⟩ := procPagetable_root created
  have child : (({ s with kmem := start.kmem } : Machine).updateProc np fun proc =>
      { proc with tf := tf, pagetable := start.pagetable, top := top }).uvm np = start := by
    simp [uvm, updateProc]
  have others : (({ s with kmem := start.kmem } : Machine).updateProc np fun proc =>
      { proc with tf := tf, pagetable := start.pagetable, top := top }).proc p = s.proc p :=
    Function.update_of_ne apart ..
  simp only [child, others] at copy
  have none : start.CopyOf (s.proc p).pagetable 0 :=
    ⟨fun vpn below => absurd below (Nat.not_lt_zero vpn), fun vpn _ => by simp [Uvm.leafAt, empty]⟩
  obtain ⟨ownsU, _, _⟩ := Uvm.copyPages_spec parent owns none copy
  -- the root was free before the call
  have list := Uvm.kalloc_freelist first
  have before : u.pagetable.root ∈ s.kmem.freelist := by
    rw [Uvm.copyPages_root copy, list, root]
    simp
  -- and it is not free after it
  have nodup := inv.owned.keeps.nodup
  rw [list, root, ← Uvm.copyPages_root copy] at nodup
  have after := (undone.free _).mpr before
  obtain ⟨m', freeing, rfl⟩ := freeproc_cases freed
  have freeing := TopPages.procFreepagetable_user freeing
  simp only [withUvm, updateProc, Function.update_self, inv.unused np unused] at freeing
  rw [Uvm.freeUser, if_neg (lt_irrefl 0)] at freeing
  cases freeing
  rcases List.mem_cons.mp after with same | free
  · rw [same] at nodup
    simp at nodup
  · exact ownsU.not_free ⟨.root, rfl⟩ free

/-- If nothing is left for the first page of a process that has one, `fork` panics. -/
theorem fork_first {np : Fin NPROC} {alloc : Machine} (inv : s.FrameInv)
    (used : (s.proc p).state ≠ .unused) (positive : 0 < (s.proc p).sz)
    (found : s.allocproc = .ok (some (np, alloc))) (empty : alloc.kmem.freelist = []) :
    ∃ text, s.fork p = .error (.panic text) := by
  obtain ⟨unused, tf, m, start, top, first, created, rfl⟩ := allocproc_cases found
  have apart : p ≠ np := by
    rintro rfl
    exact used unused
  obtain ⟨pte, page, _⟩ := (inv.pages p used).heap 0 (by simpa using positive)
  obtain ⟨_, taken, _⟩ := inv.owned.keeps.kalloc first
  obtain ⟨_, leaves, _⟩ := FrameInv.procPagetable_owns taken created
  obtain ⟨text, panics⟩ := start.uvmcopy_first positive page leaves empty
  refine ⟨text, ?_⟩
  have child : (({ s with kmem := start.kmem } : Machine).updateProc np fun proc =>
      { proc with tf := tf, pagetable := start.pagetable, top := top }).uvm np = start := by
    simp [uvm, updateProc]
  have others : (({ s with kmem := start.kmem } : Machine).updateProc np fun proc =>
      { proc with tf := tf, pagetable := start.pagetable, top := top }).proc p = s.proc p :=
    Function.update_of_ne apart ..
  rw [fork, found]
  simp only [child, others, bind, Except.bind, panics]

/-- There are two frames, and none for the pages that lead to the trampoline. -/
theorem fork_undone_never_two : ((oneProcess 2).proc 0).state = .running ∧
    ¬ ∃ s', (oneProcess 2).fork 0 = .ok (none, s') ∧ (oneProcess 2).ForkUndone s' 0 :=
  ⟨rfl, fork_undone_never (.boot (oneProcess_boot (by decide))) (by decide) ⟨1, rfl⟩ (by decide)⟩

/-- A process with one page, and four frames: all go to the trap frame and the page table of the child. -/
theorem fork_panics : ∃ (s alloc : Machine) (text : String),
    s.FrameInv ∧ (s.proc 0).state = .running ∧ (s.proc 0).sz = 4096 ∧
      s.allocproc = .ok (some (1, alloc)) ∧ alloc.kmem.freelist = [] ∧
      s.fork 0 = .error (.panic text) := by
  obtain ⟨m, ran⟩ : ∃ m, (oneProcess 7).growproc 0 4096 = .ok (true, m) := ⟨_, rfl⟩
  have inv := (FrameInv.boot (oneProcess_boot (show 7 ≤ 32764 by decide))).growproc (by decide) ran
  obtain ⟨alloc, found, empty⟩ : ∃ alloc, m.allocproc = .ok (some (1, alloc)) ∧
      alloc.kmem.freelist = [] := by
    cases ran
    exact ⟨_, rfl, rfl⟩
  have process : (m.proc 0).state = .running ∧ (m.proc 0).sz = 4096 := by
    cases ran
    exact ⟨rfl, rfl⟩
  obtain ⟨text, panics⟩ := fork_first (p := 0) inv (by rw [process.1]; simp) (by rw [process.2]; decide)
    found empty
  exact ⟨_, alloc, text, inv, process.1, process.2, found, empty, panics⟩

end Machine

end Riscv2os.Xv7
