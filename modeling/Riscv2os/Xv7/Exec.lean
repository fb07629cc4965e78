import Riscv2os.Xv7.Mmap

/-!
# Memory of any size: `exec`, `sbrk` and `copyout`

`exec` builds a page table from the segments of a program and the arguments, and
then frees the old one. The headers are read from the file, so every program and
every malformed file is covered. `growproc` is the work of `sbrk`, and `copyOut` is
what `read`, `fstat` and `wait` do to the memory of their caller.
-/

namespace Riscv2os.Xv7

open Riscv2os.Std

/-- "\x7FELF" in little endian. -/
abbrev ELF_MAGIC : Nat := 0x464C457F

abbrev ELF_PROG_LOAD : Nat := 1

/-- Max exec arguments. -/
abbrev MAXARG : Nat := 32

/-- The number in `n` bytes at an offset, least significant byte first. -/
def field (page : Page) (off : Nat) : Nat → Nat
  | 0 => 0
  | n + 1 => (page.byte off).toNat + 256 * field page (off + 1) n

namespace Uvm

/-- The loop of `loadseg`, at offset `i` with `count` pages to go. -/
def loadPages (ip : Inode) (va offset sz : Nat) : Nat → Nat → Uvm → Except Fault (Bool × Uvm)
  | 0, _, u => .ok (true, u)
  | count + 1, i, u =>
      match u.walkaddr ((va + i) % 2 ^ 64) with
      | none => .error (.panic "loadseg: address should exist")
      | some pa =>
          let n := min PGSIZE (sz - i)
          let (page, got) := ip.readi (u.kmem.mem pa) ((offset + i) % 2 ^ 32) n
          let u : Uvm := { u with kmem := u.kmem.setPage pa page }
          if got ≠ n then .ok (false, u) else loadPages ip va offset sz count (i + PGSIZE) u

/-- Load a program segment at a virtual address. The flag is false when the C function
returns -1. -/
def loadseg (u : Uvm) (va : Nat) (ip : Inode) (offset sz : Nat) : Except Fault (Bool × Uvm) :=
  if va % PGSIZE ≠ 0 then .error (.panic "loadseg: va must be page aligned")
  else loadPages ip va offset sz ((sz + PGSIZE - 1) / PGSIZE) 0 u

/-- The loop of `exec` over the program headers, with `count` to go at offset `off` of
the file. The results are false for `goto bad`, the size, and the memory. -/
def loadSegments (ip : Inode) : Nat → Nat → Nat → Uvm → Except Fault (Bool × Nat × Uvm)
  | 0, _, sz, u => .ok (true, sz, u)
  | count + 1, off, sz, u => do
      let (ph, got) := ip.readi (fun _ => 0) off 56
      if got ≠ 56 then return (false, sz, u)
      if field ph 0 4 ≠ ELF_PROG_LOAD then
        loadSegments ip count ((off + 56) % 2 ^ 32) sz u
      else
        let vaddr := field ph 16 8
        let filesz := field ph 32 8
        let memsz := field ph 40 8
        if memsz < filesz then return (false, sz, u)
        if (vaddr + memsz) % 2 ^ 64 < vaddr then return (false, sz, u)
        let (sz, u) ← u.uvmalloc sz ((vaddr + memsz) % 2 ^ 64)
        if sz = 0 then return (false, sz, u)
        if vaddr % PGSIZE ≠ 0 then return (false, sz, u)
        let (loaded, u) ← u.loadseg vaddr ip (field ph 8 8 % 2 ^ 32) (filesz % 2 ^ 32)
        if !loaded then return (false, sz, u)
        loadSegments ip count ((off + 56) % 2 ^ 32) sz u

/-- Push the argument strings. The results are the addresses of the strings with the
stack pointer below them, or `none` for `goto bad`, and the memory. -/
def pushArgs (stackbase : Nat) :
    List (List UInt8) → Nat → List Nat → Uvm → Option (Nat × List Nat) × Uvm
  | [], sp, ustack, u => (some (sp, ustack), u)
  | arg :: rest, sp, ustack, u =>
      if ustack.length ≥ MAXARG then (none, u)
      else
        let sp := sub64 sp (arg.length + 1)
        let sp := sp - sp % 16
        if sp < stackbase then (none, u)
        else
          let (copied, u) := u.copyout sp (arg ++ [0])
          if copied then pushArgs stackbase rest sp (ustack ++ [sp]) u else (none, u)

/-- The bytes of an array of `uint64`. -/
def wordBytes (words : List Nat) : List UInt8 :=
  words.flatMap fun word => (List.range 8).map fun k => UInt8.ofNat (word / 256 ^ k)

/-- The part of `exec` between `proc_pagetable` and the commit. The results are false for
`goto bad`, the size, and the new page table. -/
def buildImage (u : Uvm) (ip : Inode) (elf : Page) (argv : List (List UInt8)) :
    Except Fault (Bool × Nat × Uvm) := do
  let (loaded, sz, u) ← loadSegments ip (field elf 56 2) (field elf 32 8 % 2 ^ 32) 0 u
  if !loaded then return (false, sz, u)
  let sz := pgRoundUp sz
  let (sz, u) ← u.uvmalloc sz ((sz + 2 * PGSIZE) % 2 ^ 64)
  if sz = 0 then return (false, sz, u)
  let u ← u.uvmclear (sub64 sz (2 * PGSIZE))
  let stackbase := sub64 sz PGSIZE
  match pushArgs stackbase argv sz [] u with
  | (none, u) => return (false, sz, u)
  | (some (sp, ustack), u) =>
      let sp := sub64 sp ((ustack.length + 1) * 8)
      let sp := sp - sp % 16
      if sp < stackbase then return (false, sz, u)
      let (copied, u) := u.copyout sp (wordBytes (ustack ++ [0]))
      return (copied, sz, u)

end Uvm

namespace Machine

/-- The end of `exec`: commit to the user image and free the old one. -/
def execCommit (s : Machine) (p : Fin NPROC) (u : Uvm) (top : TopPages) (sz : Nat) :
    Except Fault Machine := do
  let old := s.proc p
  let m ← old.top.procFreepagetable ⟨u.kmem, old.pagetable⟩ old.sz
  return { s with kmem := m }.updateProc p fun proc =>
    { proc with pagetable := u.pagetable, top := top, sz := sz }

/-- Replace the program of a process, once the inode of the file is found and locked.
The flag is false when the C function returns -1. -/
def exec (s : Machine) (p : Fin NPROC) (ip : Inode) (argv : List (List UInt8)) :
    Except Fault (Bool × Machine) := do
  let (elf, got) := ip.readi (fun _ => 0) 0 64
  if got ≠ 64 then return (false, s)
  if field elf 0 4 ≠ ELF_MAGIC then return (false, s)
  let (u, top) ← procPagetable s.kmem (s.proc p).tf
  let (built, sz, u) ← u.buildImage ip elf argv
  if built then
    let s ← s.execCommit p u top sz
    return (true, s)
  else
    let m ← top.procFreepagetable u sz
    return (false, { s with kmem := m })

/-- Grow or shrink user memory by `n` bytes. The flag is false when the C function
returns -1. Sizes are of type `uint` here. -/
def growproc (s : Machine) (p : Fin NPROC) (n : BitVec 32) : Except Fault (Bool × Machine) := do
  let sz := (s.proc p).sz % 2 ^ 32
  let newsz := (sz + n.toNat) % 2 ^ 32
  if n.toInt > 0 then
    let (sz, u) ← (s.uvm p).uvmalloc sz newsz
    if sz % 2 ^ 32 = 0 then return (false, s.withUvm p u)
    return (true, (s.withUvm p u).updateProc p fun proc => { proc with sz := sz % 2 ^ 32 })
  else if n.toInt < 0 then
    let (sz, u) ← (s.uvm p).uvmdealloc sz newsz
    return (true, (s.withUvm p u).updateProc p fun proc => { proc with sz := sz % 2 ^ 32 })
  else return (true, s.updateProc p fun proc => { proc with sz := sz })

/-- Copy bytes from the kernel to the memory of a process. -/
def copyOut (s : Machine) (p : Fin NPROC) (dstva : Nat) (src : List UInt8) : Bool × Machine :=
  let (copied, u) := (s.uvm p).copyout dstva src
  (copied, s.withUvm p u)

end Machine

end Riscv2os.Xv7
