import Riscv2os.Std.Loops
import Riscv2os.Std.TransitionSystem
import Riscv2os.Xv7.UserPages

/-!
# Processes with mappings

Any number of processes, up to `NPROC` at a time, load and store, open and close
files, map, unmap, grow, fork, run other programs and exit, in any order. The content
of files changes at any time through `write`, and the kernel writes to the memory of
a process through `copyOut`. For every mapping the system remembers the address that
`mmap` returned.
-/

namespace Riscv2os.Xv7

open Riscv2os.Std

namespace Ftable

/-- `iget` by the lookup of a path name: one more reference to an entry of the inode
cache. An entry that nobody refers to is recycled for another file, whose content
`ilock` then reads. -/
def iget (t : Ftable) (ip : Fin NINODE) (size : Nat) (data : Nat → UInt8) : Ftable :=
  t.updateInode ip fun inode =>
    if inode.ref = 0 then { ref := 1, size := size, data := data }
    else { inode with ref := inode.ref + 1 }

/-- The content of a file changes. -/
def change (t : Ftable) (ip : Fin NINODE) (size : Nat) (data : Nat → UInt8) : Ftable :=
  t.updateInode ip fun inode => { inode with size := size, data := data }

end Ftable

/-- The actions of processes. -/
inductive MmapAct where
  | openFile (p : Fin NPROC) (ip : Fin NINODE) (type : FileType)
  | dup (p : Fin NPROC) (fd : Fin NOFILE)
  | close (p : Fin NPROC) (fd : Fin NOFILE)
  | write (ip : Fin NINODE)
  | mmap (p : Fin NPROC) (addr : Nat) (length prot flags fd offset : BitVec 32)
  | munmap (p : Fin NPROC) (addr : Nat) (length : BitVec 32)
  | access (p : Fin NPROC) (va : Nat) (byte : Option UInt8)
  | copyOut (p : Fin NPROC) (dstva : Nat) (src : List UInt8)
  | sbrk (p : Fin NPROC) (n : BitVec 32)
  | exec (p : Fin NPROC)
  | fork (p : Fin NPROC)
  | exit (p : Fin NPROC)
  | reap (p : Fin NPROC)

/-- The kernel, and for every mapping the address that `mmap` returned. -/
structure MmapSys where
  machine : Machine
  returned : Fin NPROC → Fin MMAP_NUM → Nat

/-- A process that runs in user mode and is not about to exit. -/
def Machine.Active (s : Machine) (p : Fin NPROC) : Prop :=
  (s.proc p).state = .running ∧ (s.proc p).killed = false

/-- One system call, access or trap of one process. A process that was killed can
only exit; the parent of a zombie frees it. -/
inductive MmapStep : MmapSys → MmapAct → MmapSys → Prop where
  | openFile {s p ip type size data readable writable opened machine} (active : s.machine.Active p)
      (isFile : type = .inode ∨ type = .device)
      (ran : ({ s.machine with ftable := s.machine.ftable.iget ip size data } : Machine).openInode
        p ip type readable writable = .ok (opened, machine)) :
      MmapStep s (.openFile p ip type) { s with machine := machine }
  | dup {s p fd done machine} (active : s.machine.Active p)
      (ran : s.machine.sysDup p fd = .ok (done, machine)) :
      MmapStep s (.dup p fd) { s with machine := machine }
  | close {s p fd done machine} (active : s.machine.Active p)
      (ran : s.machine.sysClose p fd = .ok (done, machine)) :
      MmapStep s (.close p fd) { s with machine := machine }
  | write {s ip size data} :
      MmapStep s (.write ip)
        { s with machine := { s.machine with ftable := s.machine.ftable.change ip size data } }
  | mmap {s p addr length prot flags fd offset va i machine mapped} (active : s.machine.Active p)
      (entry : s.machine.mapAlloc p = some (i, mapped))
      (ran : s.machine.sysMmap p addr length prot flags fd offset = .ok (some va, machine)) :
      MmapStep s (.mmap p addr length prot flags fd offset)
        { machine := machine
          returned := Function.update s.returned p (Function.update (s.returned p) i va) }
  | mmapFails {s p addr length prot flags fd offset machine} (active : s.machine.Active p)
      (ran : s.machine.sysMmap p addr length prot flags fd offset = .ok (none, machine)) :
      MmapStep s (.mmap p addr length prot flags fd offset) { s with machine := machine }
  | munmap {s p addr length done machine} (active : s.machine.Active p)
      (ran : s.machine.sysMunmap p addr length = .ok (done, machine)) :
      MmapStep s (.munmap p addr length) { s with machine := machine }
  | access {s p va byte machine} (active : s.machine.Active p)
      (ran : s.machine.access p va byte = .ok machine) :
      MmapStep s (.access p va byte) { s with machine := machine }
  | copyOut {s p dstva src done machine} (active : s.machine.Active p)
      (ran : s.machine.copyOut p dstva src = (done, machine)) :
      MmapStep s (.copyOut p dstva src) { s with machine := machine }
  | sbrk {s p n done machine} (active : s.machine.Active p)
      (ran : s.machine.growproc p n = .ok (done, machine)) :
      MmapStep s (.sbrk p n) { s with machine := machine }
  | exec {s p ip argv done machine} (active : s.machine.Active p)
      (ran : s.machine.exec p ip argv = .ok (done, machine)) :
      MmapStep s (.exec p) { s with machine := machine }
  | fork {s p np machine} (active : s.machine.Active p)
      (ran : s.machine.fork p = .ok (some np, machine)) :
      MmapStep s (.fork p)
        { machine := machine, returned := Function.update s.returned np (s.returned p) }
  | forkFails {s p machine} (active : s.machine.Active p)
      (ran : s.machine.fork p = .ok (none, machine)) :
      MmapStep s (.fork p) { s with machine := machine }
  | exit {s p machine} (running : (s.machine.proc p).state = .running)
      (ran : s.machine.exit p = .ok machine) : MmapStep s (.exit p) { s with machine := machine }
  | reap {s p machine} (zombie : (s.machine.proc p).state = .zombie)
      (ran : s.machine.freeproc p = .ok machine) :
      MmapStep s (.reap p) { s with machine := machine }

/-- Who refers to a frame: the page table of a process, or the process for its trap
frame. -/
inductive Owner where
  | table (p : Fin NPROC) (place : PageTable.Place)
  | tf (p : Fin NPROC)
deriving DecidableEq

/-- The process of an owner. -/
def Owner.proc : Owner → Fin NPROC
  | .table p _ => p
  | .tf p => p

namespace Machine

/-- The frame of an owner. An unused entry of the process table owns nothing. -/
def frameOf (s : Machine) (o : Owner) : Option Frame :=
  if (s.proc o.proc).state = .unused then none
  else
    match o with
    | .table p place => (s.proc p).pagetable.frameAt place
    | .tf p => some (s.proc p).tf

/-- No frame has two owners, owned frames are counted once, and free frames are
listed once and not counted. -/
structure FramesOwned (s : Machine) : Prop where
  unique : ∀ {o o' f}, s.frameOf o = some f → s.frameOf o' = some f → o = o'
  keeps : s.kmem.Keeps {f | ∃ o, s.frameOf o = some f}

/-- The kernel before any file is open: processes with memory of any size and
content, and nothing else. -/
structure Boot (s : Machine) : Prop where
  frames : s.FramesOwned
  pages : ∀ p, (s.proc p).state ≠ .unused → UserPages (s.proc p).sz (s.proc p).pagetable ∧
    ∀ vpn, ((s.proc p).pagetable.leaves.lookup vpn).isSome → vpn * PGSIZE < (s.proc p).sz
  unused : ∀ p, (s.proc p).state = .unused → (s.proc p).sz = 0
  notOpen : ∀ p fd, (s.proc p).ofile fd = none
  notMapped : ∀ p i, (s.proc p).minfo i = {}
  closed : ∀ f, (s.ftable.file f).ref = 0 ∧ (s.ftable.file f).type = .none

end Machine

/-- The system of all processes. -/
def mmapSystem : TransitionSystem MmapSys MmapAct where
  Initial s := s.machine.Boot
  Step := MmapStep

/-- The kernel with its first process, which has no memory yet, and some free pages. -/
def Machine.oneProcess (count : Nat) : Machine where
  kmem :=
    { freelist := List.range' (KERNBASE / PGSIZE + 4) count
      refCount := fun f => if KERNBASE / PGSIZE ≤ f ∧ f < KERNBASE / PGSIZE + 4 then 1 else 0
      mem := fun _ _ => 0 }
  ftable := ⟨fun _ => {}, fun _ => {}⟩
  proc p :=
    if p = 0 then
      { state := .running
        pagetable :=
          { root := KERNBASE / PGSIZE
            tables := ((∅ : AList fun _ => Frame).insert (2, 255) (KERNBASE / PGSIZE + 2)).insert
              (1, 131071) (KERNBASE / PGSIZE + 3)
            leaves := ∅ }
        top := ⟨true, some (KERNBASE / PGSIZE + 1)⟩
        tf := KERNBASE / PGSIZE + 1 }
    else {}

namespace Machine

variable {count : Nat}

/-- The owners of its frames. -/
theorem oneProcess_frames {o : Owner} {f : Frame} (found : (oneProcess count).frameOf o = some f) :
    o = .table 0 .root ∧ f = KERNBASE / PGSIZE ∨ o = .tf 0 ∧ f = KERNBASE / PGSIZE + 1 ∨
      o = .table 0 (.table 2 255) ∧ f = KERNBASE / PGSIZE + 2 ∨
      o = .table 0 (.table 1 131071) ∧ f = KERNBASE / PGSIZE + 3 := by
  have first : o.proc = 0 := by
    by_contra other
    simp [Machine.frameOf, oneProcess, other] at found
  cases o with
  | tf p =>
      obtain rfl : p = 0 := first
      exact .inr (.inl ⟨rfl, (Option.some.inj found).symm⟩)
  | table p place =>
      obtain rfl : p = 0 := first
      cases place with
      | root => exact .inl ⟨rfl, (Option.some.inj found).symm⟩
      | leaf vpn => cases found
      | table level index =>
          by_cases lower : (level, index) = (1, 131071)
          · cases lower
            exact .inr (.inr (.inr ⟨rfl, (Option.some.inj found).symm⟩))
          by_cases upper : (level, index) = (2, 255)
          · cases upper
            exact .inr (.inr (.inl ⟨rfl, (Option.some.inj found).symm⟩))
          · have none : (oneProcess count).frameOf (.table 0 (.table level index)) = none :=
              (AList.lookup_insert_ne lower).trans ((AList.lookup_insert_ne upper).trans rfl)
            rw [none] at found
            cases found

/-- There is a kernel that has just booted. -/
theorem oneProcess_boot (fits : count ≤ 32764) : (oneProcess count).Boot := by
  constructor
  · constructor
    · intro o o' f found found'
      rcases oneProcess_frames found with ⟨rfl, rfl⟩ | ⟨rfl, rfl⟩ | ⟨rfl, rfl⟩ | ⟨rfl, rfl⟩ <;>
        rcases oneProcess_frames found' with ⟨rfl, same⟩ | ⟨rfl, same⟩ | ⟨rfl, same⟩ | ⟨rfl, same⟩ <;>
        first | rfl | cases same
    · refine ⟨?_, List.nodup_range', ?_⟩
      · rintro f ⟨o, found⟩
        rcases oneProcess_frames found with ⟨_, rfl⟩ | ⟨_, rfl⟩ | ⟨_, rfl⟩ | ⟨_, rfl⟩ <;>
          exact ⟨rfl, by unfold Managed; decide⟩
      · intro (f : Nat) free
        simp only [oneProcess, List.mem_range'_1] at free
        refine ⟨if_neg fun taken => absurd taken.2 (not_lt.mpr free.1), ?_⟩
        change KERNBASE / PGSIZE ≤ f ∧ f < PHYSTOP / PGSIZE
        simp only [KERNBASE, PHYSTOP, PGSIZE] at free ⊢
        omega
  · intro p used
    by_cases first : p = 0
    · subst first
      constructor
      · constructor
        · intro vpn below
          cases below
        · intro vpn pte found
          cases found
      · intro vpn found
        cases found
    · simp [oneProcess, first] at used
  · intro p unused
    by_cases first : p = 0
    · subst first
      cases unused
    · simp [oneProcess, first]
  · intro p fd
    by_cases first : p = 0 <;> simp [oneProcess, first]
  · intro p i
    by_cases first : p = 0 <;> simp [oneProcess, first]
  · exact fun f => ⟨rfl, rfl⟩

end Machine

/-- The first process, with 16 free pages. -/
def firstProcess : MmapSys where
  machine := .oneProcess 16
  returned _ _ := 0

theorem firstProcess_boot : firstProcess.machine.Boot := Machine.oneProcess_boot (by decide)

/-- The first process has opened a file of two pages as descriptor 0. -/
def firstFile : MmapSys where
  machine :=
    match ({ firstProcess.machine with
        ftable := firstProcess.machine.ftable.iget 0 8192 fun _ => 7 } : Machine).openInode 0 0 .inode
        true true with
    | .ok (_, machine) => machine
    | .error _ => firstProcess.machine
  returned := firstProcess.returned

theorem firstFile_reachable {allowed : MmapSys → MmapAct → Prop}
    (permitted : allowed firstProcess (.openFile 0 0 .inode)) :
    mmapSystem.ReachableUnder allowed firstFile :=
  .step (.initial firstProcess_boot) permitted (@MmapStep.openFile firstProcess 0 0 .inode 8192
    (fun _ => 7) true true true _ ⟨rfl, rfl⟩ (.inl rfl) rfl)

/-- The first process has mapped its file. -/
def firstMapping (length prot flags : BitVec 32) : MmapSys where
  machine := ((firstFile.machine.sysMmap 0 0 length prot flags 0 0).toOption.map Prod.snd).getD
    firstFile.machine
  returned :=
    Function.update firstFile.returned 0 (Function.update (firstFile.returned 0) 0 MMAP_VSTART)

theorem firstMapping_reachable {allowed : MmapSys → MmapAct → Prop} {length prot flags : BitVec 32}
    (opens : allowed firstProcess (.openFile 0 0 .inode))
    (maps : allowed firstFile (.mmap 0 0 length prot flags 0 0)) :
    mmapSystem.ReachableUnder allowed (firstMapping length prot flags) := by
  have ran : firstFile.machine.sysMmap 0 0 length prot flags 0 0 =
      .ok (some MMAP_VSTART, (firstMapping length prot flags).machine) := by
    refine ok_mk_getD ?_ _
    unfold Machine.sysMmap
    generalize hasFlag flags MAP_SHARED = shared
    generalize hasFlag prot PROT_WRITE = store
    cases shared <;> cases store <;> rfl
  exact (firstFile_reachable opens).step maps (.mmap ⟨rfl, rfl⟩ rfl ran)

end Riscv2os.Xv7
