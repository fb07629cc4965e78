import Riscv2os.Std.Loops
import Riscv2os.Xv7.Exec

/-!
# What the functions of the mapping code can do

One lemma for each function that says what a successful call has gone through.
The invariants of the following modules are derived from these lemmas. `Kept`
says what the functions that work on pages leave alone.
-/

namespace Riscv2os.Xv7

open Riscv2os.Std

/-- Only a null pointer cannot be followed. -/
theorem MapInfo.deref_eq_ok {map : MapInfo} {f : Fin NFILE} :
    map.deref = .ok f ↔ map.file = some f := by
  unfold deref
  cases map.file <;> simp

namespace Machine

/-- Nothing changes but page tables, pages, the content and counts of inodes, and
which processes are killed. -/
structure Kept (s s' : Machine) : Prop where
  file : s'.ftable.file = s.ftable.file
  proc : ∀ p, s'.proc p =
    { s.proc p with killed := (s'.proc p).killed, pagetable := (s'.proc p).pagetable }

namespace Kept

variable {s s' s'' : Machine}

theorem refl (s : Machine) : Kept s s := ⟨rfl, fun _ => rfl⟩

theorem trans (first : Kept s s') (second : Kept s' s'') : Kept s s'' where
  file := second.file.trans first.file
  proc p := by
    rw [second.proc p, first.proc p]

theorem withUvm (s : Machine) (p : Fin NPROC) (u : Uvm) : Kept s (s.withUvm p u) where
  file := rfl
  proc q := by
    by_cases same : q = p
    · subst same
      simp [Machine.withUvm, updateProc]
    · simp [Machine.withUvm, updateProc, same]

theorem kill (s : Machine) (p : Fin NPROC) : Kept s (s.kill p) where
  file := rfl
  proc q := by
    by_cases same : q = p
    · subst same
      simp [Machine.kill, updateProc]
    · simp [Machine.kill, updateProc, same]

theorem updateInode (s : Machine) (ip : Fin NINODE) (change : Inode → Inode) :
    Kept s { s with ftable := s.ftable.updateInode ip change } := ⟨rfl, fun _ => rfl⟩

theorem ofile (kept : Kept s s') (p : Fin NPROC) : (s'.proc p).ofile = (s.proc p).ofile := by
  rw [kept.proc p]

theorem minfo (kept : Kept s s') (p : Fin NPROC) : (s'.proc p).minfo = (s.proc p).minfo := by
  rw [kept.proc p]

theorem state (kept : Kept s s') (p : Fin NPROC) : (s'.proc p).state = (s.proc p).state := by
  rw [kept.proc p]

end Kept

variable {s s' : Machine} {p : Fin NPROC}

/-- What a page fault goes through before `mappages`: the address selects a live
mapping that it is not past the end of, a page is free, and the inode is in use. -/
structure Faults (s : Machine) (p : Fin NPROC) (va : Nat) (i : Fin MMAP_NUM) (f : Fin NFILE)
    (mem : Frame) (m : Kmem) : Prop where
  window : MMAP_VSTART ≤ va ∧ va < MMAP_VEND
  sel : mapSel (pgRoundDown va) = .ok i
  used : ((s.proc p).minfo i).used = true
  inside : va < ((s.proc p).minfo i).vend
  free : s.kmem.kalloc = some (mem, m)
  file : ((s.proc p).minfo i).file = some f
  held : 1 ≤ (s.ftable.inode (s.ftable.file f).ip).ref

/-- The physical pages with the page that a fault fills. -/
def filled (s : Machine) (p : Fin NPROC) (va : Nat) (i : Fin MMAP_NUM) (f : Fin NFILE)
    (mem : Frame) (m : Kmem) : Uvm :=
  ⟨m.setPage mem (s.filePage f ((s.proc p).minfo i) (pgRoundDown va)), (s.proc p).pagetable⟩

/-- A fault that gets to `mappages`. -/
theorem Faults.pageFault {va : Nat} {i : Fin MMAP_NUM} {f : Fin NFILE} {mem : Frame} {m : Kmem}
    (faults : s.Faults p va i f mem m) :
    s.pageFault p va = do
      let (mapped, u) ← (s.filled p va i f mem m).mappages (pgRoundDown va)
        (filePte ((s.proc p).minfo i) mem)
      if mapped then return s.withUvm p u
      else return (s.withUvm p { u with kmem := u.kmem.kfree mem }).kill p := by
  obtain ⟨window, sel, used, inside, free, file, held⟩ := faults
  have lock : s.ftable.ilock (s.ftable.file f).ip = .ok () := by
    rw [Ftable.ilock, if_neg (by omega)]
  have live : ¬ (((s.proc p).minfo i).used = false ∨ va ≥ ((s.proc p).minfo i).vend) := by
    rw [used]
    simp only [Bool.true_eq_false, false_or]
    omega
  rw [Machine.pageFault, if_pos window, sel]
  simp only [bind, Except.bind, if_neg live, faultIn, free, MapInfo.deref, file, lock]
  rfl

/-- A successful page fault kills the process or has got to `mappages`. -/
theorem pageFault_cases {va : Nat} (ran : s.pageFault p va = .ok s') :
    s' = s.kill p ∨ ∃ i f mem m mapped u, s.Faults p va i f mem m ∧
      (s.filled p va i f mem m).mappages (pgRoundDown va) (filePte ((s.proc p).minfo i) mem) =
        .ok (mapped, u) ∧
      s' = if mapped then s.withUvm p u
        else (s.withUvm p { u with kmem := u.kmem.kfree mem }).kill p := by
  by_cases window : va ≥ MMAP_VSTART ∧ va < MMAP_VEND
  swap
  · rw [pageFault, if_neg window] at ran
    cases ran
    exact .inl rfl
  have unfolded := ran
  rw [pageFault, if_pos window, bind_ok] at unfolded
  obtain ⟨i, sel, unfolded⟩ := unfolded
  split at unfolded
  · cases unfolded
    exact .inl rfl
  next live =>
  rw [not_or, Bool.not_eq_false, not_le] at live
  cases free : s.kmem.kalloc with
  | none =>
      simp only [faultIn, free] at unfolded
      cases unfolded
      exact .inl rfl
  | some page =>
      obtain ⟨mem, m⟩ := page
      simp only [faultIn, free, bind_ok] at unfolded
      obtain ⟨f, file, _, lock, result, _⟩ := unfolded
      have held : 1 ≤ (s.ftable.inode (s.ftable.file f).ip).ref := by
        by_contra lost
        rw [Ftable.ilock, if_pos (by omega)] at lock
        cases lock
      have faults : s.Faults p va i f mem m :=
        ⟨window, sel, live.1, live.2, free, MapInfo.deref_eq_ok.mp file, held⟩
      rw [faults.pageFault, bind_ok] at ran
      obtain ⟨⟨mapped, u⟩, mapping, ran⟩ := ran
      refine .inr ⟨i, f, mem, m, mapped, u, faults, mapping, ?_⟩
      cases mapped <;> cases ran <;> rfl

/-- A page fault leaves files and mappings alone. -/
theorem pageFault_kept {va : Nat} (ran : s.pageFault p va = .ok s') : Kept s s' := by
  rcases pageFault_cases ran with rfl | ⟨i, f, mem, m, mapped, u, _, _, rfl⟩
  · exact .kill s p
  · split
    · exact .withUvm s p u
    · exact (Kept.withUvm s p _).trans (.kill _ p)

/-- A successful access is carried out by the hardware or traps. -/
theorem access_cases {va : Nat} {byte : Option UInt8} (ran : s.access p va byte = .ok s') :
    (byte = none ∧ s.permitted p va .load = true ∧ s' = s) ∨
      (∃ b pte, byte = some b ∧ (s.proc p).pagetable.lookup va = some pte ∧
        pte.permits .store = true ∧ s' = s.storeByte p va pte b) ∨
      s.pageFault p va = .ok s' := by
  cases byte with
  | none =>
      simp only [access] at ran
      split at ran
      · next permitted =>
        cases ran
        exact .inl ⟨rfl, permitted, rfl⟩
      · exact .inr (.inr ran)
  | some b =>
      simp only [access] at ran
      split at ran
      · next pte found =>
        split at ran
        · next permitted =>
          cases ran
          exact .inr (.inl ⟨b, pte, rfl, found, permitted, rfl⟩)
        · exact .inr (.inr ran)
      · exact .inr (.inr ran)

theorem access_kept {va : Nat} {byte : Option UInt8} (ran : s.access p va byte = .ok s') :
    Kept s s' := by
  rcases access_cases ran with ⟨_, _, rfl⟩ | ⟨b, pte, _, _, _, rfl⟩ | fault
  · exact .refl _
  · exact .withUvm s p _
  · exact pageFault_kept fault

/-- The write-back of a page changes at most the content of one inode. -/
theorem writeBack_cases {map : MapInfo} {vpageBase va : Nat} {pte : Pte}
    (ran : s.writeBack map vpageBase va pte = .ok s') :
    s' = s ∨ ∃ ip change, s' = { s with ftable := s.ftable.updateInode ip change } := by
  unfold writeBack at ran
  split at ran
  · rw [bind_ok] at ran
    obtain ⟨f, _, ran⟩ := ran
    rw [bind_ok] at ran
    obtain ⟨_, _, ran⟩ := ran
    cases ran
    exact .inr ⟨_, _, rfl⟩
  · cases ran
    exact .inl rfl

theorem writeBack_kept {map : MapInfo} {vpageBase va : Nat} {pte : Pte}
    (ran : s.writeBack map vpageBase va pte = .ok s') : Kept s s' := by
  rcases writeBack_cases ran with same | ⟨ip, change, same⟩
  · rw [same]
    exact .refl s
  · rw [same]
    exact .updateInode s ip change

/-- A round of the loop of `sys_munmap`. -/
theorem munmapPage_cases {map : MapInfo} {vpageBase va : Nat}
    (ran : munmapPage p map vpageBase s va = .ok s') :
    ((s.proc p).pagetable.lookup va = none ∧ s' = s) ∨
      ∃ pte written u, (s.proc p).pagetable.lookup va = some pte ∧
        s.writeBack map vpageBase va pte = .ok written ∧
        (written.uvm p).dropPage va pte.pa = .ok u ∧ s' = written.withUvm p u := by
  rw [munmapPage, bind_ok] at ran
  obtain ⟨entry, walked, ran⟩ := ran
  have found : (s.proc p).pagetable.lookup va = entry := by
    unfold PageTable.walk at walked
    split at walked
    · cases walked
    · exact Except.ok.inj walked
  cases entry with
  | none =>
      cases ran
      exact .inl ⟨found, rfl⟩
  | some pte =>
      simp only [bind_ok] at ran
      obtain ⟨written, wrote, u, dropped, ran⟩ := ran
      cases ran
      exact .inr ⟨pte, written, u, found, wrote, dropped, rfl⟩

theorem munmapPage_kept {map : MapInfo} {vpageBase va : Nat}
    (ran : munmapPage p map vpageBase s va = .ok s') : Kept s s' := by
  rcases munmapPage_cases ran with ⟨_, rfl⟩ | ⟨pte, written, u, _, wrote, _, rfl⟩
  · exact .refl _
  · exact (writeBack_kept wrote).trans (.withUvm written p u)

/-- The entry that `sys_mmap` fills in. -/
def newMap (i : Fin MMAP_NUM) (length prot flags : BitVec 32) (f : Fin NFILE) : MapInfo where
  vstart := MMAP_VSTART + i * MMAP_SIZE
  vend := pgRoundUp ((MMAP_VSTART + i * MMAP_SIZE + uint64 length) % 2 ^ 64)
  length := length
  prot := prot
  flags := flags
  used := true
  file := some f

/-- `map_alloc` finds an unused entry. -/
theorem mapAlloc_cases {i : Fin MMAP_NUM} (found : s.mapAlloc p = some (i, s')) :
    ((s.proc p).minfo i).used = false ∧
      s' = s.updateMap p i fun map => { map with vstart := MMAP_VSTART + i * MMAP_SIZE } := by
  unfold mapAlloc at found
  split at found
  · next unused =>
    cases found
    exact ⟨by simpa using List.find?_some unused, rfl⟩
  · cases found

/-- A call of `mmap` that fails changes nothing; one that succeeds counts one more
use of an open file and enters the mapping. -/
theorem sysMmap_cases {addr : Nat} {length prot flags fd offset : BitVec 32} {va : Option Nat}
    (ran : s.sysMmap p addr length prot flags fd offset = .ok (va, s')) :
    (va = none ∧ s' = s) ∨
      ∃ f i mapped ftable, s.ofile p fd = .ok (some f) ∧ (s.ftable.file f).type = .inode ∧
        s.mapAlloc p = some (i, mapped) ∧ s.ftable.filedup f = .ok ftable ∧
        va = some (MMAP_VSTART + i * MMAP_SIZE) ∧
        s' = ({ s with ftable := ftable } : Machine).updateMap p i fun _ =>
          newMap i length prot flags f := by
  unfold sysMmap at ran
  split at ran
  · cases ran
    exact .inl ⟨rfl, rfl⟩
  simp only [pure, Except.pure, bind_ok] at ran
  obtain ⟨entry, isOpen, ran⟩ := ran
  cases entry with
  | none =>
      cases ran
      exact .inl ⟨rfl, rfl⟩
  | some f =>
      simp only at ran
      split at ran
      · cases ran
        exact .inl ⟨rfl, rfl⟩
      next isInode =>
      split at ran
      · cases ran
        exact .inl ⟨rfl, rfl⟩
      cases found : s.mapAlloc p with
      | none =>
          rw [found] at ran
          cases ran
          exact .inl ⟨rfl, rfl⟩
      | some entry =>
          obtain ⟨i, mapped⟩ := entry
          rw [found] at ran
          obtain ⟨_, rfl⟩ := mapAlloc_cases found
          rw [bind_ok] at ran
          obtain ⟨ftable, dup, ran⟩ := ran
          refine .inr ⟨f, i, _, ftable, isOpen, not_not.mp isInode, rfl, dup, ?_⟩
          cases ran
          simp [updateMap, updateProc, newMap]

/-- The entry that `sys_munmap` leaves when it does not close the file. -/
def cutMap (map : MapInfo) (addr stop : Nat) : MapInfo :=
  { map with
    vstart := if map.vstart = addr then stop else map.vstart
    vend := if map.vend = stop then addr else map.vend }

/-- The end of the range of `sys_munmap`. -/
def munmapStop (addr : Nat) (length : BitVec 32) : Nat := (addr + uint64 length) % 2 ^ 64

/-- A call of `munmap` does nothing, or runs the loop over the pages and closes or
cuts the mapping. -/
theorem sysMunmap_cases {addr : Nat} {length : BitVec 32} {done : Bool}
    (ran : s.sysMunmap p addr length = .ok (done, s')) :
    (done = false ∧ s' = s) ∨
      ∃ i looped, done = true ∧ MMAP_VSTART ≤ addr ∧ mapSel (pgRoundDown addr) = .ok i ∧
        ((s.proc p).minfo i).used = true ∧
        (pagesBetween (pgRoundDown addr) (munmapStop addr length)).foldlM
          (munmapPage p ((s.proc p).minfo i) (pgRoundDown addr)) s = .ok looped ∧
        ((((s.proc p).minfo i).vstart = addr ∧ ((s.proc p).minfo i).length = length ∧
            ∃ f ftable, ((s.proc p).minfo i).file = some f ∧ looped.ftable.fileclose f = .ok ftable ∧
              s' = ({ looped with ftable := ftable } : Machine).updateMap p i fun map =>
                { map with used := false }) ∨
          (¬ (((s.proc p).minfo i).vstart = addr ∧ ((s.proc p).minfo i).length = length) ∧
            s' = looped.updateMap p i fun map => cutMap map addr (munmapStop addr length))) := by
  unfold sysMunmap at ran
  split at ran
  · cases ran
    exact .inl ⟨rfl, rfl⟩
  next window =>
  simp only [pure, Except.pure, bind_ok] at ran
  obtain ⟨i, sel, ran⟩ := ran
  split at ran
  · cases ran
    exact .inl ⟨rfl, rfl⟩
  next used =>
  rw [bind_ok] at ran
  obtain ⟨looped, loop, ran⟩ := ran
  refine .inr ⟨i, looped, ?_⟩
  have inside : MMAP_VSTART ≤ addr := by
    rw [not_or, not_lt] at window
    exact window.1
  split at ran
  · next whole =>
    rw [bind_ok] at ran
    obtain ⟨f, file, ran⟩ := ran
    rw [bind_ok] at ran
    obtain ⟨ftable, closed, ran⟩ := ran
    cases ran
    exact ⟨rfl, inside, sel, by simpa using used, loop,
      .inl ⟨whole.1, whole.2, f, ftable, MapInfo.deref_eq_ok.mp file, closed, rfl⟩⟩
  · next part =>
    cases ran
    exact ⟨rfl, inside, sel, by simpa using used, loop, .inr ⟨part, rfl⟩⟩

/-- `dup` and `fdalloc` fill an unused entry of the table of open files. -/
theorem fdalloc_cases {f : Fin NFILE} (found : s.fdalloc p f = some s') :
    ∃ fd, (s.proc p).ofile fd = none ∧ s' = s.updateProc p fun proc =>
      { proc with ofile := Function.update proc.ofile fd (some f) } := by
  unfold fdalloc at found
  split at found
  · next fd unused =>
    cases found
    exact ⟨fd, by simpa using List.find?_some unused, rfl⟩
  · cases found

/-- A call of `allocproc` that finds an unused process and pages for it. -/
theorem allocproc_cases {np : Fin NPROC} (found : s.allocproc = .ok (some (np, s'))) :
    (s.proc np).state = .unused ∧ ∃ tf m u top, s.kmem.kalloc = some (tf, m) ∧
      procPagetable m tf = .ok (u, top) ∧
      s' = ({ s with kmem := u.kmem } : Machine).updateProc np fun proc =>
        { proc with tf := tf, pagetable := u.pagetable, top := top } := by
  unfold allocproc at found
  split at found
  · cases found
  next unused =>
  have isUnused := List.find?_some unused
  cases first : s.kmem.kalloc with
  | none =>
      rw [first] at found
      cases found
  | some page =>
      obtain ⟨tf, m⟩ := page
      simp only [first] at found
      obtain ⟨⟨u, top⟩, created, found⟩ := bind_ok.mp found
      cases found
      exact ⟨by simpa using isUnused, tf, m, u, top, rfl, created, rfl⟩

/-- A call of `freeproc` that returns. -/
theorem freeproc_cases (ran : s.freeproc p = .ok s') :
    ∃ m, (s.proc p).top.procFreepagetable ⟨s.kmem.kfree (s.proc p).tf, (s.proc p).pagetable⟩
        (s.proc p).sz = .ok m ∧
      s' = ({ s with kmem := m } : Machine).updateProc p fun proc =>
        { proc with state := .unused, killed := false, sz := 0, pagetable := ⟨0, ∅, ∅⟩, top := {} } := by
  rw [freeproc, bind_ok] at ran
  obtain ⟨m, freed, ran⟩ := ran
  cases ran
  exact ⟨m, freed, rfl⟩

/-- The calls in `exit` of a process that is not the first. -/
theorem exit_cases (ran : s.exit p = .ok s') :
    p ≠ initproc ∧ ∃ shut looped, s.exitFiles p = .ok shut ∧ shut.exitMaps p = .ok looped ∧
      s' = ({ looped with ftable := looped.ftable.iput (looped.proc p).cwd } : Machine).updateProc p
        fun proc => { proc with state := .zombie } := by
  unfold exit at ran
  split at ran
  · cases ran
  next other =>
  obtain ⟨shut, files, ran⟩ := bind_ok.mp ran
  obtain ⟨looped, maps, ran⟩ := bind_ok.mp ran
  cases ran
  exact ⟨other, shut, looped, files, maps, rfl⟩

/-- A call of `fork` that creates a process. -/
theorem fork_cases {np : Fin NPROC} (ran : s.fork p = .ok (some np, s')) :
    ∃ alloc u files maps, s.allocproc = .ok (some (np, alloc)) ∧
      Uvm.uvmcopy (alloc.proc p).pagetable (alloc.uvm np) (alloc.proc p).sz = .ok (true, u) ∧
      ((alloc.withUvm np u).updateProc np fun proc =>
        { proc with sz := ((alloc.withUvm np u).proc p).sz }).forkFiles p np = .ok files ∧
      files.forkMaps p np = .ok maps ∧
      s' = ({ maps with ftable := maps.ftable.idup (maps.proc p).cwd } : Machine).updateProc np
        fun proc => { proc with cwd := (maps.proc p).cwd, state := .running } := by
  rw [fork, bind_ok] at ran
  obtain ⟨found, alloc, ran⟩ := ran
  cases found with
  | none => cases ran
  | some child =>
      obtain ⟨np', alloc'⟩ := child
      simp only [bind_ok] at ran
      obtain ⟨⟨copied, u⟩, copy, ran⟩ := ran
      cases copied with
      | false =>
          simp only [Bool.not_false, if_true, bind_ok] at ran
          obtain ⟨_, _, ran⟩ := ran
          cases ran
      | true =>
          simp only [Bool.not_true, Bool.false_eq_true, if_false, bind_ok] at ran
          obtain ⟨files, openFiles, maps, mappings, ran⟩ := ran
          cases ran
          exact ⟨alloc', u, files, maps, alloc, copy, openFiles, mappings, rfl⟩

/-- A call of `fork` that creates no process. -/
theorem fork_none_cases (ran : s.fork p = .ok (none, s')) :
    s.allocproc = .ok none ∧ s' = s ∨ ∃ np alloc u, s.allocproc = .ok (some (np, alloc)) ∧
      Uvm.uvmcopy (alloc.proc p).pagetable (alloc.uvm np) (alloc.proc p).sz = .ok (false, u) ∧
      (alloc.withUvm np u).freeproc np = .ok s' := by
  rw [fork, bind_ok] at ran
  obtain ⟨result, found, ran⟩ := ran
  cases result with
  | none =>
      cases ran
      exact .inl ⟨found, rfl⟩
  | some child =>
      obtain ⟨np', alloc'⟩ := child
      simp only [bind_ok] at ran
      obtain ⟨⟨copied, u⟩, copy, ran⟩ := ran
      cases copied with
      | false =>
          simp only [Bool.not_false, if_true, bind_ok] at ran
          obtain ⟨freed, free, ran⟩ := ran
          cases ran
          exact .inr ⟨np', alloc', u, found, copy, free⟩
      | true =>
          simp only [Bool.not_true, Bool.false_eq_true, if_false, bind_ok] at ran
          obtain ⟨files, openFiles, maps, mappings, ran⟩ := ran
          cases ran

/-- A change of the size of a process. -/
theorem growproc_cases {n : BitVec 32} {done : Bool} (ran : s.growproc p n = .ok (done, s')) :
    (∃ sz u, (s.uvm p).uvmalloc ((s.proc p).sz % 2 ^ 32)
        (((s.proc p).sz % 2 ^ 32 + n.toNat) % 2 ^ 32) = .ok (sz, u) ∧
        (sz % 2 ^ 32 = 0 ∧ s' = s.withUvm p u ∨ sz % 2 ^ 32 ≠ 0 ∧
          s' = (s.withUvm p u).updateProc p fun proc => { proc with sz := sz % 2 ^ 32 })) ∨
      (∃ sz u, (s.uvm p).uvmdealloc ((s.proc p).sz % 2 ^ 32)
        (((s.proc p).sz % 2 ^ 32 + n.toNat) % 2 ^ 32) = .ok (sz, u) ∧
          s' = (s.withUvm p u).updateProc p fun proc => { proc with sz := sz % 2 ^ 32 }) ∨
      s' = s.updateProc p fun proc => { proc with sz := (s.proc p).sz % 2 ^ 32 } := by
  unfold growproc at ran
  simp only at ran
  split at ran
  · rw [bind_ok] at ran
    obtain ⟨⟨sz, u⟩, alloc, ran⟩ := ran
    refine .inl ⟨sz, u, alloc, ?_⟩
    simp only at ran
    split at ran
    · next zero =>
      cases ran
      exact .inl ⟨zero, rfl⟩
    · next positive =>
      cases ran
      exact .inr ⟨positive, rfl⟩
  split at ran
  · rw [bind_ok] at ran
    obtain ⟨⟨sz, u⟩, dealloc, ran⟩ := ran
    cases ran
    exact .inr (.inl ⟨sz, u, dealloc, rfl⟩)
  · cases ran
    exact .inr (.inr rfl)

/-- A call of `exec` that returns refuses the program before it builds a page table, frees
the one that it has built, or commits to it. -/
theorem exec_cases {ip : Inode} {argv : List (List UInt8)} {done : Bool}
    (ran : s.exec p ip argv = .ok (done, s')) :
    s' = s ∨ ∃ u top elf built sz u', procPagetable s.kmem (s.proc p).tf = .ok (u, top) ∧
      u.buildImage ip elf argv = .ok (built, sz, u') ∧
      (built = false ∧ (∃ m, top.procFreepagetable u' sz = .ok m ∧ s' = { s with kmem := m }) ∨
        built = true ∧ s.execCommit p u' top sz = .ok s') := by
  unfold exec at ran
  obtain ⟨⟨elf, got⟩, read⟩ : ∃ result, ip.readi (fun _ => 0) 0 64 = result := ⟨_, rfl⟩
  simp only [read] at ran
  split at ran
  · cases ran
    exact .inl rfl
  split at ran
  · cases ran
    exact .inl rfl
  simp only [pure, Except.pure, bind_ok] at ran
  obtain ⟨⟨u, top⟩, create, ⟨built, sz, u'⟩, build, ran⟩ := ran
  refine .inr ⟨u, top, elf, built, sz, u', create, build, ?_⟩
  cases built with
  | true =>
      simp only [if_true, bind_ok] at ran
      obtain ⟨committed, commit, ran⟩ := ran
      cases ran
      exact .inr ⟨rfl, commit⟩
  | false =>
      simp only [Bool.false_eq_true, if_false, bind_ok] at ran
      obtain ⟨m, free, ran⟩ := ran
      cases ran
      exact .inl ⟨rfl, m, free, rfl⟩

/-- The commit of `exec`. -/
theorem execCommit_cases {u : Uvm} {top : TopPages} {sz : Nat} (ran : s.execCommit p u top sz = .ok s') :
    ∃ m, (s.proc p).top.procFreepagetable ⟨u.kmem, (s.proc p).pagetable⟩ (s.proc p).sz = .ok m ∧
      s' = ({ s with kmem := m } : Machine).updateProc p fun proc =>
        { proc with pagetable := u.pagetable, top := top, sz := sz } := by
  rw [execCommit, bind_ok] at ran
  obtain ⟨m, free, ran⟩ := ran
  cases ran
  exact ⟨m, free, rfl⟩

/-- Nothing changes but pages, page tables and the sizes of processes. -/
structure Resized (s s' : Machine) : Prop where
  ftable : s'.ftable = s.ftable
  proc : ∀ q, s'.proc q =
    { s.proc q with pagetable := (s'.proc q).pagetable, top := (s'.proc q).top, sz := (s'.proc q).sz }

theorem Resized.updateProc (s : Machine) (p : Fin NPROC) (m : Kmem) (pt : PageTable) (top : TopPages)
    (sz : Nat) : Resized s (({ s with kmem := m } : Machine).updateProc p fun proc =>
      { proc with pagetable := pt, top := top, sz := sz }) where
  ftable := rfl
  proc q := by
    by_cases same : q = p
    · subst same
      simp [Machine.updateProc]
    · simp [Machine.updateProc, same]

theorem growproc_resized {n : BitVec 32} {done : Bool} (ran : s.growproc p n = .ok (done, s')) :
    Resized s s' := by
  have withUvm : ∀ u, Resized s (s.withUvm p u) := fun u =>
    Resized.updateProc s p u.kmem u.pagetable (s.proc p).top (s.proc p).sz
  have resize : ∀ u sz, Resized s ((s.withUvm p u).updateProc p fun proc => { proc with sz := sz }) := by
    intro u sz
    have same : (s.withUvm p u).updateProc p (fun proc => { proc with sz := sz }) =
        ({ s with kmem := u.kmem } : Machine).updateProc p fun proc =>
          { proc with pagetable := u.pagetable, top := (s.proc p).top, sz := sz } := by
      simp [Machine.withUvm, Machine.updateProc]
    rw [same]
    exact .updateProc s p u.kmem u.pagetable (s.proc p).top sz
  rcases growproc_cases ran with ⟨sz, u, _, ⟨_, rfl⟩ | ⟨_, rfl⟩⟩ | ⟨sz, u, _, rfl⟩ | rfl
  · exact withUvm u
  · exact resize u _
  · exact resize u _
  · exact .updateProc s p s.kmem (s.proc p).pagetable (s.proc p).top _

theorem exec_resized {ip : Inode} {argv : List (List UInt8)} {done : Bool}
    (ran : s.exec p ip argv = .ok (done, s')) : Resized s s' := by
  rcases exec_cases ran with rfl |
    ⟨u, top, elf, built, sz, u', _, _, ⟨_, m, _, rfl⟩ | ⟨_, commit⟩⟩
  · exact ⟨rfl, fun _ => rfl⟩
  · exact ⟨rfl, fun _ => rfl⟩
  · obtain ⟨m, _, rfl⟩ := execCommit_cases commit
    exact .updateProc s p m u'.pagetable top sz

end Machine

/-- An `int` as a 64-bit number. -/
theorem uint64_eq (n : BitVec 32) :
    uint64 n = if n.toNat < 2 ^ 31 then n.toNat else n.toNat + (2 ^ 64 - 2 ^ 32) := by
  have bound := n.isLt
  have signed := BitVec.toInt_eq_toNat_cond n
  unfold uint64
  rw [signed]
  split <;> split <;> omega

/-- The range of `sys_munmap` ends in the upper half of the address space, wherever it
starts in the window. -/
theorem munmapStop_bounds {addr : Nat} (length : BitVec 32) (low : MMAP_VSTART ≤ addr)
    (high : addr ≤ MMAP_VEND) :
    2 ^ 36 ≤ Machine.munmapStop addr length ∧ Machine.munmapStop addr length < TRAPFRAME ∧
      Machine.munmapStop addr length = if length.toNat < 2 ^ 31 then addr + length.toNat
        else addr + length.toNat - 2 ^ 32 := by
  have bound := length.isLt
  unfold Machine.munmapStop
  rw [uint64_eq]
  simp only [MMAP_VSTART, MMAP_VEND, MMAP_NUM, MMAP_SIZE, TRAPFRAME, MAXVA, PGSIZE] at low high ⊢
  split <;> omega

/-- The entry that an address selects has its part of the window around it. -/
theorem mapSel_ok {va : Nat} {i : Fin MMAP_NUM} (sel : mapSel va = .ok i) :
    (i : Nat) = (va - MMAP_VSTART) / MMAP_SIZE := by
  unfold mapSel at sel
  simp only at sel
  split at sel
  · cases sel
    rfl
  · cases sel

theorem mapSel_lt {va : Nat} {i : Fin MMAP_NUM} (sel : mapSel va = .ok i) : va < MMAP_VEND := by
  have index := mapSel_ok sel
  have bound := i.isLt
  simp only [MMAP_VSTART, MMAP_VEND, MMAP_NUM, MMAP_SIZE] at index bound ⊢
  omega

end Riscv2os.Xv7
