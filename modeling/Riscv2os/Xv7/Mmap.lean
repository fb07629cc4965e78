import Riscv2os.Xv7.File

/-!
# Memory-mapped files

What `vm.c`, `trap.c` and `proc.c` do with the mappings of processes: `sys_mmap`,
`sys_munmap`, the page-fault branch of `usertrap`, `fork`, `exit` and the part of
`wait` that frees a process. Every definition is one system call or one trap. The
arrays of a process are used by the process alone, and the file table and the
page allocator have their locks, so each runs as one step.
-/

namespace Riscv2os.Xv7

open Riscv2os.Std

/-- Maximum number of processes. -/
abbrev NPROC : Nat := 10

/-- The start of the window for mappings. -/
abbrev MMAP_VSTART : Nat := 2 ^ 37

/-- The part of the window for one mapping. -/
abbrev MMAP_SIZE : Nat := 2 ^ 20

/-- Mappings per process. -/
abbrev MMAP_NUM : Nat := 32

/-- The end of the window. -/
abbrev MMAP_VEND : Nat := MMAP_VSTART + MMAP_NUM * MMAP_SIZE

instance : NeZero NPROC := ⟨by decide⟩

instance : NeZero MMAP_NUM := ⟨by decide⟩

instance (i : Fin MMAP_NUM) (rounds : List (Fin MMAP_NUM)) : Decidable (i ∈ rounds) :=
  List.instDecidableMemOfLawfulBEq i rounds

def PROT_READ : BitVec 32 := 1
def PROT_WRITE : BitVec 32 := 2
def MAP_SHARED : BitVec 32 := 1

/-- A flag of an `int` argument. -/
def hasFlag (bits flag : BitVec 32) : Bool := bits &&& flag != 0

/-- An `int` converted to `uint64`. -/
def uint64 (n : BitVec 32) : Nat := (n.toInt % 2 ^ 64).toNat

/-- Difference of two `uint64`. -/
def sub64 (a b : Nat) : Nat := (a + 2 ^ 64 - b) % 2 ^ 64

/-- `struct map_info`. -/
structure MapInfo where
  vstart : Nat := 0
  vend : Nat := 0
  length : BitVec 32 := 0
  prot : BitVec 32 := 0
  flags : BitVec 32 := 0
  used : Bool := false
  file : Option (Fin NFILE) := none

/-- The states of a process that matter here; `running` stands for all between
creation and exit. -/
inductive ProcState where
  | unused | running | zombie
deriving DecidableEq, Repr

/-- `struct proc`. -/
structure Proc where
  state : ProcState := .unused
  killed : Bool := false
  sz : Nat := 0
  pagetable : PageTable := ⟨0, ∅, ∅⟩
  /-- The kernel's pages in the page table. -/
  top : TopPages := {}
  /-- The frame of the trap frame. -/
  tf : Frame := 0
  ofile : Fin NOFILE → Option (Fin NFILE) := fun _ => none
  cwd : Fin NINODE := 0
  minfo : Fin MMAP_NUM → MapInfo := fun _ => {}

/-- The process that `userinit` makes. -/
def initproc : Fin NPROC := 0

/-- The process table and what it refers to. -/
structure Machine where
  kmem : Kmem
  ftable : Ftable
  proc : Fin NPROC → Proc

/-- The `map_info` entry that an address of the window selects. -/
def mapSel (vpageBase : Nat) : Except Fault (Fin MMAP_NUM) :=
  let sel := (vpageBase - MMAP_VSTART) / MMAP_SIZE
  if inside : sel < MMAP_NUM then .ok ⟨sel, inside⟩ else .error .outOfBounds

/-- Follow the pointer to a file. -/
def MapInfo.deref (map : MapInfo) : Except Fault (Fin NFILE) :=
  match map.file with
  | some f => .ok f
  | none => .error .nullPointer

/-- The addresses of a loop `for(va = start; va < stop; va += PGSIZE)`. -/
def pagesBetween (start stop : Nat) : List Nat :=
  (List.range ((stop - start + PGSIZE - 1) / PGSIZE)).map fun i => start + i * PGSIZE

namespace Uvm

/-- Count the pages of a mapping once more. -/
def mmapDup (u : Uvm) (m : MapInfo) : Except Fault Uvm :=
  (pagesBetween m.vstart m.vend).foldlM
    (fun u va => do
      match ← u.pagetable.walk va with
      | some pte => return { u with kmem := u.kmem.kref pte.pa }
      | none => return u) u

/-- Unmap a page and drop its reference. -/
def dropPage (u : Uvm) (va : Nat) (pa : Frame) : Except Fault Uvm := do
  let u ← u.uvmunmap va PGSIZE false
  return { u with kmem := u.kmem.kderef pa }

/-- Unmap the pages of a mapping. -/
def mmapDedup (u : Uvm) (m : MapInfo) : Except Fault Uvm :=
  (pagesBetween m.vstart m.vend).foldlM
    (fun u va => do
      match ← u.pagetable.walk va with
      | some pte => u.dropPage va pte.pa
      | none => return u) u

end Uvm

namespace Machine

/-- Change one process. -/
def updateProc (s : Machine) (p : Fin NPROC) (change : Proc → Proc) : Machine :=
  { s with proc := Function.update s.proc p (change (s.proc p)) }

/-- The physical pages with the page table of a process. -/
def uvm (s : Machine) (p : Fin NPROC) : Uvm := ⟨s.kmem, (s.proc p).pagetable⟩

/-- Put back what `uvm` gave. -/
def withUvm (s : Machine) (p : Fin NPROC) (u : Uvm) : Machine :=
  { s with kmem := u.kmem }.updateProc p fun proc => { proc with pagetable := u.pagetable }

/-- Change one entry of `minfo`. -/
def updateMap (s : Machine) (p : Fin NPROC) (i : Fin MMAP_NUM) (change : MapInfo → MapInfo) : Machine :=
  s.updateProc p fun proc =>
    { proc with minfo := Function.update proc.minfo i (change (proc.minfo i)) }

/-- `p->killed = 1`. -/
def kill (s : Machine) (p : Fin NPROC) : Machine := s.updateProc p fun proc => { proc with killed := true }

/-- The file in an entry of the table of open files. The C code does not check the
number. -/
def ofile (s : Machine) (p : Fin NPROC) (fd : BitVec 32) : Except Fault (Option (Fin NFILE)) :=
  if inside : fd.toNat < NOFILE then .ok ((s.proc p).ofile ⟨fd.toNat, inside⟩)
  else .error .outOfBounds

/-- An unused entry of `minfo`, which gets the start of its part of the window. -/
def mapAlloc (s : Machine) (p : Fin NPROC) : Option (Fin MMAP_NUM × Machine) :=
  match (List.finRange MMAP_NUM).find? fun i => !((s.proc p).minfo i).used with
  | some i => some (i, s.updateMap p i fun map =>
      { map with vstart := MMAP_VSTART + i * MMAP_SIZE })
  | none => none

/-- `mmap(addr, length, prot, flags, fd, offset)`. The result is the address, or
`none` for -1. -/
def sysMmap (s : Machine) (p : Fin NPROC) (addr : Nat) (length prot flags fd offset : BitVec 32) :
    Except Fault (Option Nat × Machine) := do
  if addr ≠ 0 ∨ offset ≠ 0 then return (none, s)
  match ← s.ofile p fd with
  | none => return (none, s)
  | some f =>
      if (s.ftable.file f).type ≠ .inode then return (none, s)
      if hasFlag flags MAP_SHARED && hasFlag prot PROT_WRITE && !(s.ftable.file f).writable then
        return (none, s)
      match s.mapAlloc p with
      | none => return (none, s)
      | some (i, s) =>
          let s := s.updateMap p i fun map =>
            { map with
              vend := pgRoundUp ((map.vstart + uint64 length) % 2 ^ 64)
              length := length, prot := prot, flags := flags, file := some f, used := true }
          let ftable ← s.ftable.filedup f
          return (some ((s.proc p).minfo i).vstart, { s with ftable := ftable })

/-- The part of the loop of `sys_munmap` that writes a dirty page of mapping `map`
to the file. -/
def writeBack (s : Machine) (map : MapInfo) (vpageBase va : Nat) (pte : Pte) : Except Fault Machine :=
  if hasFlag map.flags MAP_SHARED && pte.d then do
    let fileStart := sub64 va vpageBase
    let writeLength := min PGSIZE (sub64 (uint64 map.length) fileStart)
    let f ← map.deref
    let ip := (s.ftable.file f).ip
    s.ftable.ilock ip
    return { s with ftable := s.ftable.updateInode ip fun inode =>
      (inode.writei (s.kmem.mem pte.pa) (fileStart % 2 ^ 32) (writeLength % 2 ^ 32)).1 }
  else return s

/-- The loop body of `sys_munmap`. -/
def munmapPage (p : Fin NPROC) (map : MapInfo) (vpageBase : Nat) (s : Machine) (va : Nat) :
    Except Fault Machine := do
  match ← (s.proc p).pagetable.walk va with
  | none => return s
  | some pte =>
      let s ← s.writeBack map vpageBase va pte
      let u ← (s.uvm p).dropPage va pte.pa
      return s.withUvm p u

/-- `munmap(addr, length)`. The flag is false when the call returns -1. -/
def sysMunmap (s : Machine) (p : Fin NPROC) (addr : Nat) (length : BitVec 32) :
    Except Fault (Bool × Machine) := do
  if addr < MMAP_VSTART ∨ addr > MMAP_VEND then return (false, s)
  let vpageBase := pgRoundDown addr
  let i ← mapSel vpageBase
  let map := (s.proc p).minfo i
  if !map.used then return (false, s)
  let stop := (addr + uint64 length) % 2 ^ 64
  let s ← (pagesBetween vpageBase stop).foldlM (munmapPage p map vpageBase) s
  if map.vstart = addr ∧ map.length = length then
    let f ← map.deref
    let ftable ← s.ftable.fileclose f
    return (true, ({ s with ftable := ftable } : Machine).updateMap p i fun map =>
      { map with used := false })
  else
    return (true, s.updateMap p i fun map =>
      { map with
        vstart := if map.vstart = addr then stop else map.vstart
        vend := if map.vend = stop then addr else map.vend })

/-- What `memset` and `readi` put into the page that a fault installs. -/
def filePage (s : Machine) (f : Fin NFILE) (map : MapInfo) (vpageBase : Nat) : Page :=
  let fileStart := sub64 vpageBase map.vstart
  let readLength := min PGSIZE (sub64 (uint64 map.length) fileStart)
  ((s.ftable.inode (s.ftable.file f).ip).readi (fun _ => 0) (fileStart % 2 ^ 32)
    (readLength % 2 ^ 32)).1

/-- The leaf entry that a fault installs. -/
def filePte (map : MapInfo) (mem : Frame) : Pte :=
  { pa := mem, r := hasFlag map.prot PROT_READ, w := hasFlag map.prot PROT_WRITE, x := false
    u := true }

/-- The part of the page-fault branch that allocates a page, reads it from the file
of mapping `map` and installs it. -/
def faultIn (s : Machine) (p : Fin NPROC) (map : MapInfo) (vpageBase : Nat) :
    Except Fault Machine :=
  match s.kmem.kalloc with
  | none => .ok (s.kill p)
  | some (mem, m) => do
      let f ← map.deref
      s.ftable.ilock (s.ftable.file f).ip
      let (mapped, u) ← (⟨m.setPage mem (s.filePage f map vpageBase), (s.proc p).pagetable⟩ :
        Uvm).mappages vpageBase (filePte map mem)
      if mapped then return s.withUvm p u
      else return (s.withUvm p { u with kmem := u.kmem.kfree mem }).kill p

/-- The page-fault branch of `usertrap`: install the page or kill the process. -/
def pageFault (s : Machine) (p : Fin NPROC) (faultVaddr : Nat) : Except Fault Machine :=
  if faultVaddr ≥ MMAP_VSTART ∧ faultVaddr < MMAP_VEND then do
    let i ← mapSel (pgRoundDown faultVaddr)
    if ((s.proc p).minfo i).used = false ∨ faultVaddr ≥ ((s.proc p).minfo i).vend then
      return s.kill p
    else s.faultIn p ((s.proc p).minfo i) (pgRoundDown faultVaddr)
  else .ok (s.kill p)

/-- A user store that the page table permits: the byte changes and the hardware
sets `PTE_D`. -/
def storeByte (s : Machine) (p : Fin NPROC) (va : Nat) (pte : Pte) (byte : UInt8) : Machine :=
  s.withUvm p
    { kmem := s.kmem.setPage pte.pa fun k =>
        if k.val = va % PGSIZE then byte else s.kmem.mem pte.pa k
      pagetable := (s.proc p).pagetable.setLeaf va { pte with d := true } }

/-- Whether the hardware carries out a user access. -/
def permitted (s : Machine) (p : Fin NPROC) (va : Nat) (access : Access) : Bool :=
  match (s.proc p).pagetable.lookup va with
  | some pte => pte.permits access
  | none => false

/-- A user load or store: the hardware carries it out, or traps into `usertrap`. -/
def access (s : Machine) (p : Fin NPROC) (va : Nat) : Option UInt8 → Except Fault Machine
  | none => if s.permitted p va .load then .ok s else s.pageFault p va
  | some byte =>
      match (s.proc p).pagetable.lookup va with
      | some pte => if pte.permits .store then .ok (s.storeByte p va pte byte) else s.pageFault p va
      | none => s.pageFault p va

/-- Look in the process table for an unused entry, with a page for the trap frame
and a page table without user pages. -/
def allocproc (s : Machine) : Except Fault (Option (Fin NPROC × Machine)) :=
  match (List.finRange NPROC).find? fun p => (s.proc p).state = .unused with
  | none => .ok none
  | some np =>
      match s.kmem.kalloc with
      | none => .ok none
      | some (tf, m) => do
          let (u, top) ← procPagetable m tf
          return some (np, { s with kmem := u.kmem }.updateProc np fun proc =>
            { proc with tf := tf, pagetable := u.pagetable, top := top })

/-- Free a proc structure and its user pages. -/
def freeproc (s : Machine) (p : Fin NPROC) : Except Fault Machine := do
  let proc := s.proc p
  let m ← proc.top.procFreepagetable ⟨s.kmem.kfree proc.tf, proc.pagetable⟩ proc.sz
  return { s with kmem := m }.updateProc p fun proc =>
    { proc with state := .unused, killed := false, sz := 0, pagetable := ⟨0, ∅, ∅⟩, top := {} }

/-- The loop of `fork` over the open files. -/
def forkFiles (s : Machine) (p np : Fin NPROC) : Except Fault Machine :=
  (List.finRange NOFILE).foldlM
    (fun s fd =>
      match (s.proc p).ofile fd with
      | none => return s
      | some f => do
          let ftable ← s.ftable.filedup f
          return ({ s with ftable := ftable } : Machine).updateProc np fun proc =>
            { proc with ofile := Function.update proc.ofile fd (some f) }) s

/-- The loop of `fork` over the mappings. `mmap_dup` gets the page table of the
child and the address of its first entry. -/
def forkMaps (s : Machine) (p np : Fin NPROC) : Except Fault Machine :=
  (List.finRange MMAP_NUM).foldlM
    (fun s i =>
      if ((s.proc p).minfo i).used then do
        let s := s.updateMap np i fun _ => (s.proc p).minfo i
        let u ← (s.uvm np).mmapDup ((s.proc np).minfo 0)
        return s.withUvm np u
      else return s) s

/-- Create a new process, copying the parent. The result is the child, or `none`
for -1. -/
def fork (s : Machine) (p : Fin NPROC) : Except Fault (Option (Fin NPROC) × Machine) := do
  match ← s.allocproc with
  | none => return (none, s)
  | some (np, s) =>
      let (copied, u) ← Uvm.uvmcopy (s.proc p).pagetable (s.uvm np) (s.proc p).sz
      let s := s.withUvm np u
      if !copied then
        let s ← s.freeproc np
        return (none, s)
      let s := s.updateProc np fun proc => { proc with sz := (s.proc p).sz }
      let s ← s.forkFiles p np
      let s ← s.forkMaps p np
      let s := { s with ftable := s.ftable.idup (s.proc p).cwd }.updateProc np fun proc =>
        { proc with cwd := (s.proc p).cwd, state := .running }
      return (some np, s)

/-- The loop of `exit` over the open files. -/
def exitFiles (s : Machine) (p : Fin NPROC) : Except Fault Machine :=
  (List.finRange NOFILE).foldlM
    (fun s fd =>
      match (s.proc p).ofile fd with
      | none => return s
      | some f => do
          let ftable ← s.ftable.fileclose f
          return ({ s with ftable := ftable } : Machine).updateProc p fun proc =>
            { proc with ofile := Function.update proc.ofile fd none }) s

/-- The loop of `exit` over the mappings. -/
def exitMaps (s : Machine) (p : Fin NPROC) : Except Fault Machine :=
  (List.finRange MMAP_NUM).foldlM
    (fun s i =>
      if ((s.proc p).minfo i).used then do
        let s := s.updateMap p i fun map => { map with used := false }
        let u ← (s.uvm p).mmapDedup ((s.proc p).minfo i)
        return s.withUvm p u
      else return s) s

/-- Exit the current process. It remains a zombie until its parent calls `wait`. -/
def exit (s : Machine) (p : Fin NPROC) : Except Fault Machine :=
  if p = initproc then .error (.panic "init exiting")
  else do
    let s ← s.exitFiles p
    let s ← s.exitMaps p
    return { s with ftable := s.ftable.iput (s.proc p).cwd }.updateProc p fun proc =>
      { proc with state := .zombie }

/-- The first free entry of the table of open files. -/
def fdalloc (s : Machine) (p : Fin NPROC) (f : Fin NFILE) : Option (Machine) :=
  match (List.finRange NOFILE).find? fun fd => ((s.proc p).ofile fd).isNone with
  | some fd => some (s.updateProc p fun proc =>
      { proc with ofile := Function.update proc.ofile fd (some f) })
  | none => none

/-- The end of `sys_open`, once the inode is found and locked and a reference to it
counted. -/
def openInode (s : Machine) (p : Fin NPROC) (ip : Fin NINODE) (type : FileType)
    (readable writable : Bool) : Except Fault (Bool × Machine) :=
  match s.ftable.filealloc with
  | none => .ok (false, { s with ftable := s.ftable.iput ip })
  | some (f, ftable) =>
      let s := { s with ftable := ftable }
      match s.fdalloc p f with
      | none => do
          let ftable ← s.ftable.fileclose f
          return (false, { s with ftable := ftable.iput ip })
      | some s =>
          .ok (true, { s with ftable := s.ftable.updateFile f fun file =>
            { file with
              type := type, ip := ip, readable := readable, writable := writable } })

/-- `sys_dup`. -/
def sysDup (s : Machine) (p : Fin NPROC) (fd : Fin NOFILE) : Except Fault (Bool × Machine) :=
  match (s.proc p).ofile fd with
  | none => .ok (false, s)
  | some f =>
      match s.fdalloc p f with
      | none => .ok (false, s)
      | some s => do
          let ftable ← s.ftable.filedup f
          return (true, { s with ftable := ftable })

/-- `sys_close`. -/
def sysClose (s : Machine) (p : Fin NPROC) (fd : Fin NOFILE) : Except Fault (Bool × Machine) :=
  match (s.proc p).ofile fd with
  | none => .ok (false, s)
  | some f => do
      let s := s.updateProc p fun proc =>
        { proc with ofile := Function.update proc.ofile fd none }
      let ftable ← s.ftable.fileclose f
      return (true, { s with ftable := ftable })

end Machine

end Riscv2os.Xv7
