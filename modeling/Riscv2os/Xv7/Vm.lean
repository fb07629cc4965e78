import Mathlib.Data.List.AList
import Riscv2os.Xv7.Kernel

/-!
# Physical pages and user page tables

The allocator of `kalloc.c` with its reference counts, and the functions of
`vm.c` that work on one user page table. A frame is the number of a physical
page. A page table has the frames of its own pages, which are found by their
level and by the part of the address that selects them, and its leaf entries for
user pages. The entries of the two pages that have no `PTE_U`, trampoline and trap
frame, are beside them.
-/

namespace Riscv2os.Xv7

open Riscv2os.Std

/-- One beyond the highest possible virtual address. -/
abbrev MAXVA : Nat := 2 ^ 38

/-- The page of the code that enters and leaves the kernel. -/
abbrev TRAMPOLINE : Nat := MAXVA - PGSIZE

/-- The page of the trap frame, with the trampoline above it. -/
abbrev TRAPFRAME : Nat := MAXVA - 2 * PGSIZE

/-- The content of one page. -/
abbrev Page := Bytes PGSIZE

/-- The number of a physical page. -/
abbrev Frame := Nat

/-- `PGROUNDDOWN`. -/
def pgRoundDown (a : Nat) : Nat := a / PGSIZE * PGSIZE

/-- `PGROUNDUP` of a 64-bit number. -/
def pgRoundUp (a : Nat) : Nat := pgRoundDown ((a + PGSIZE - 1) % 2 ^ 64)

/-- What a user instruction does to an address. -/
inductive Access where
  | load
  | store
deriving DecidableEq, Repr

/-- A valid leaf entry of a page table: the frame and the flags `PTE_R`, `PTE_W`,
`PTE_X`, `PTE_U` and `PTE_D`. -/
structure Pte where
  pa : Frame
  r : Bool
  w : Bool
  x : Bool
  u : Bool
  d : Bool := false
deriving DecidableEq, Repr

namespace Pte

/-- The rights the hardware asks for. `PTE_W` without `PTE_R` is reserved, and an
entry with it faults. -/
def permits (pte : Pte) : Access → Bool
  | .load => pte.u && pte.r
  | .store => pte.u && pte.r && pte.w

/-- `PTE_FLAGS(pte) == PTE_V`. -/
def bare (pte : Pte) : Bool := !(pte.r || pte.w || pte.x || pte.u || pte.d)

/-- `(pte & (PTE_R|PTE_W|PTE_X)) == 0`: `freewalk` takes the entry for one that refers to
a page table. -/
def rightless (pte : Pte) : Bool := !(pte.r || pte.w || pte.x)

end Pte

/-- The page allocator `kmem` and the content of the pages. -/
structure Kmem where
  freelist : List Frame
  refCount : Frame → BitVec 32
  mem : Frame → Page

namespace Kmem

/-- Store a whole page. -/
def setPage (m : Kmem) (pa : Frame) (page : Page) : Kmem :=
  { m with mem := Function.update m.mem pa page }

/-- Allocate one page, filled with junk. -/
def kalloc (m : Kmem) : Option (Frame × Kmem) :=
  match m.freelist with
  | [] => none
  | pa :: rest =>
      some (pa, { m with freelist := rest, refCount := Function.update m.refCount pa 1 }.setPage pa
        fun _ => 5)

/-- Free a page and fill it with junk. -/
def kfree (m : Kmem) (pa : Frame) : Kmem :=
  let m := m.setPage pa fun _ => 1
  { m with freelist := pa :: m.freelist, refCount := Function.update m.refCount pa 0 }

/-- Count one more reference to a page. -/
def kref (m : Kmem) (pa : Frame) : Kmem :=
  { m with refCount := Function.update m.refCount pa (m.refCount pa + 1) }

/-- Drop a reference, and free the page if it was the last one. -/
def kderef (m : Kmem) (pa : Frame) : Kmem :=
  let m := { m with refCount := Function.update m.refCount pa (m.refCount pa - 1) }
  if m.refCount pa = 0 then m.kfree pa else m

end Kmem

/-- A user page table. `tables` has the pages of the levels 1 and 0 under the
level of the entry that refers to them, 2 or 1. -/
structure PageTable where
  root : Frame
  tables : AList fun _ : Nat × Nat => Frame
  leaves : AList fun _ : Nat => Pte

namespace PageTable

/-- The valid leaf entry for an address. -/
def lookup (pt : PageTable) (va : Nat) : Option Pte := pt.leaves.lookup (va / PGSIZE)

/-- Whether `walk(pagetable, va, 0)` gets to the last level. -/
def reaches (pt : PageTable) (va : Nat) : Bool :=
  (pt.tables.lookup (2, va / 2 ^ 30)).isSome && (pt.tables.lookup (1, va / 2 ^ 21)).isSome

/-- `walk(pagetable, va, 0)`, and the entry there if it is valid. -/
def walk (pt : PageTable) (va : Nat) : Except Fault (Option Pte) :=
  if va ≥ MAXVA then .error (.panic "walk") else .ok (pt.lookup va)

/-- Install or change a leaf entry. -/
def setLeaf (pt : PageTable) (va : Nat) (pte : Pte) : PageTable :=
  { pt with leaves := pt.leaves.insert (va / PGSIZE) pte }

/-- `*pte = 0`. -/
def clearLeaf (pt : PageTable) (va : Nat) : PageTable :=
  { pt with leaves := pt.leaves.erase (va / PGSIZE) }

end PageTable

/-- The physical pages and one page table. -/
structure Uvm where
  kmem : Kmem
  pagetable : PageTable

namespace Uvm

/-- The page table that an entry of `level` refers to, allocated if there is none.
The flag tells whether there was one or a page for it. -/
def child (u : Uvm) (level index : Nat) : Bool × Uvm :=
  match u.pagetable.tables.lookup (level, index) with
  | some _ => (true, u)
  | none =>
      match u.kmem.kalloc with
      | none => (false, u)
      | some (pa, m) =>
          (true, { u with
            kmem := m.setPage pa fun _ => 0
            pagetable := { u.pagetable with
              tables := u.pagetable.tables.insert (level, index) pa } })

/-- `walk(pagetable, va, 1)`. -/
def walkAlloc (u : Uvm) (va : Nat) : Except Fault (Bool × Uvm) :=
  if va ≥ MAXVA then .error (.panic "walk")
  else
    let (found, u) := u.child 2 (va / 2 ^ 30)
    if found then .ok (u.child 1 (va / 2 ^ 21)) else .ok (false, u)

/-- `mappages` of one page, as all its callers here use it. The flag is false when
the C function returns -1. -/
def mappages (u : Uvm) (va : Nat) (pte : Pte) : Except Fault (Bool × Uvm) := do
  let (found, u) ← u.walkAlloc va
  if !found then return (false, u)
  match u.pagetable.lookup va with
  | some _ => .error (.panic "remap")
  | none => return (true, { u with pagetable := u.pagetable.setLeaf va pte })

/-- The loop body of `uvmunmap`. -/
def unmapPage (u : Uvm) (va : Nat) (doFree : Bool) : Except Fault Uvm := do
  match ← u.pagetable.walk va with
  | none =>
      if u.pagetable.reaches va then .error (.panic "uvmunmap: not mapped")
      else .error (.panic "uvmunmap: walk")
  | some pte =>
      if pte.bare then .error (.panic "uvmunmap: not a leaf")
      let m := if doFree then u.kmem.kfree pte.pa else u.kmem
      return ⟨m, u.pagetable.clearLeaf va⟩

/-- The pages from one address on. -/
def unmapPages (doFree : Bool) : Nat → Nat → Uvm → Except Fault Uvm
  | 0, _, u => .ok u
  | count + 1, va, u => do
      let u ← u.unmapPage va doFree
      unmapPages doFree count (va + PGSIZE) u

/-- Remove mappings from a page table. With a `size` of 0 at address 0 the C loop
runs to the end of the address space. -/
def uvmunmap (u : Uvm) (va size : Nat) (doFree : Bool) : Except Fault Uvm :=
  let last := (va + size + 2 ^ 64 - 1) % 2 ^ 64 / PGSIZE
  unmapPages doFree (last - va / PGSIZE + 1) (pgRoundDown va) u

/-- The loop of `uvmcopy`, at page `i` with `count` pages to go. -/
def copyPages (old : PageTable) : Nat → Nat → Uvm → Except Fault (Bool × Uvm)
  | 0, _, new => .ok (true, new)
  | count + 1, i, new => do
      match ← old.walk (i * PGSIZE) with
      | none =>
          if old.reaches (i * PGSIZE) then .error (.panic "uvmcopy: page not present")
          else .error (.panic "uvmcopy: pte should exist")
      | some pte =>
          match new.kmem.kalloc with
          | none =>
              let new ← new.uvmunmap 0 (i * PGSIZE) true
              return (false, new)
          | some (mem, m) =>
              let m := m.setPage mem (m.mem pte.pa)
              let (mapped, new) ← ({ new with kmem := m } : Uvm).mappages (i * PGSIZE)
                { pte with pa := mem }
              if mapped then copyPages old count (i + 1) new
              else
                let new ← ({ new with kmem := new.kmem.kfree mem } : Uvm).uvmunmap 0 (i * PGSIZE) true
                return (false, new)

/-- Given a parent's page table, copy its memory into a child's. The flag is false
when the C function returns -1. -/
def uvmcopy (old : PageTable) (new : Uvm) (sz : Nat) : Except Fault (Bool × Uvm) :=
  copyPages old ((sz + PGSIZE - 1) / PGSIZE) 0 new

/-- Whether `freewalk` finds no valid entry in a page of user data: bit 0 of each
64-bit word is `PTE_V`. -/
def noEntries (page : Page) : Bool :=
  (List.range (PGSIZE / 8)).all fun k => page.byte (8 * k) % 2 == 0

/-- `freewalk` for a leaf entry. A page of user data that it takes for a page table is
freed if it looks empty. -/
def freeLeaf (m : Kmem) (pte : Pte) : Except Fault Kmem :=
  if !pte.rightless then .error (.panic "freewalk: leaf")
  else if noEntries (m.mem pte.pa) then .ok (m.kfree pte.pa)
  else .error .wild

/-- Free the pages of a page table. The order of the frees only decides which page
`kalloc` returns next. -/
def freewalk (u : Uvm) : Except Fault Kmem := do
  let m ← u.pagetable.leaves.entries.foldlM (fun m leaf => freeLeaf m leaf.2) u.kmem
  return (u.pagetable.tables.entries.foldl (fun m table => m.kfree table.2) m).kfree
    u.pagetable.root

/-- Free user memory pages, then free page-table pages. -/
def uvmfree (u : Uvm) (sz : Nat) : Except Fault Kmem := do
  let u ← u.uvmunmap 0 sz true
  u.freewalk

/-- What `proc_freepagetable` does once the kernel's pages are unmapped. Without user
memory the pages of the table stay allocated. -/
def freeUser (u : Uvm) (sz : Nat) : Except Fault Kmem :=
  if sz > 0 then u.uvmfree sz else .ok u.kmem

/-- Deallocate user pages to bring the process size from `oldsz` to `newsz`. The first
result is the new size. -/
def uvmdealloc (u : Uvm) (oldsz newsz : Nat) : Except Fault (Nat × Uvm) := do
  if newsz ≥ oldsz then return (oldsz, u)
  let newup := pgRoundUp newsz
  if newup < pgRoundUp oldsz then
    let u ← u.uvmunmap newup (oldsz - newup) true
    return (newsz, u)
  else return (newsz, u)

/-- The loop of `uvmalloc` from `start`, at address `a` with `count` pages to go. The
flag is false when the C function returns 0. -/
def growPages (start : Nat) : Nat → Nat → Uvm → Except Fault (Bool × Uvm)
  | 0, _, u => .ok (true, u)
  | count + 1, a, u =>
      match u.kmem.kalloc with
      | none => do
          let (_, u) ← u.uvmdealloc a start
          return (false, u)
      | some (mem, m) => do
          let (mapped, u) ← ({ u with kmem := m.setPage mem fun _ => 0 } : Uvm).mappages a
            { pa := mem, r := true, w := true, x := true, u := true }
          if mapped then growPages start count (a + PGSIZE) u
          else
            let (_, u) ← ({ u with kmem := u.kmem.kfree mem } : Uvm).uvmdealloc a start
            return (false, u)

/-- Allocate pages to grow a process from `oldsz` to `newsz`. The first result is the
new size, or 0 on error. -/
def uvmalloc (u : Uvm) (oldsz newsz : Nat) : Except Fault (Nat × Uvm) := do
  if newsz < oldsz then return (oldsz, u)
  let start := pgRoundUp oldsz
  let (grown, u) ← growPages start ((newsz - start + PGSIZE - 1) / PGSIZE) start u
  return (if grown then newsz else 0, u)

/-- Mark a page as not accessible for the user. -/
def uvmclear (u : Uvm) (va : Nat) : Except Fault Uvm := do
  match ← u.pagetable.walk va with
  | some pte => return { u with pagetable := u.pagetable.setLeaf va { pte with u := false } }
  | none => if u.pagetable.reaches va then return u else .error (.panic "uvmclear")

/-- The frame of a user page, or `none` if there is none. -/
def walkaddr (u : Uvm) (va : Nat) : Option Frame :=
  if va ≥ MAXVA then none
  else
    match u.pagetable.lookup va with
    | some pte => if pte.u then some pte.pa else none
    | none => none

/-- `memmove` of bytes to an offset in a page. -/
def storeBytes (page : Page) (off : Nat) (src : List UInt8) : Page := fun k =>
  if off ≤ k.val then (src[k.val - off]?).getD (page k) else page k

/-- Copy bytes from the kernel to a user address. The flag is false when the C function
returns -1. -/
def copyout (u : Uvm) (dstva : Nat) (src : List UInt8) : Bool × Uvm :=
  if more : src = [] then (true, u)
  else
    match u.walkaddr (pgRoundDown dstva) with
    | none => (false, u)
    | some pa0 =>
        let n := min (PGSIZE - dstva % PGSIZE) src.length
        let page := storeBytes (u.kmem.mem pa0) (dstva % PGSIZE) (src.take n)
        copyout { u with kmem := u.kmem.setPage pa0 page } ((pgRoundDown dstva + PGSIZE) % 2 ^ 64)
          (src.drop n)
  termination_by src.length
  decreasing_by
    have := List.length_pos_iff.mpr more
    have := Nat.mod_lt dstva (show 0 < PGSIZE by decide)
    simp only [List.length_drop]
    omega

/-- An empty user page table. -/
def uvmcreate (m : Kmem) : Except Fault Uvm :=
  match m.kalloc with
  | none => .error (.panic "uvmcreate: out of memory")
  | some (root, m) => .ok ⟨m.setPage root fun _ => 0, ⟨root, ∅, ∅⟩⟩

end Uvm

/-- The entries of a page table for the trampoline, and for the trap frame with its
frame. -/
structure TopPages where
  trampoline : Bool := false
  trapframe : Option Frame := none

/-- A page table with no user pages. What `mappages` returns is not looked at. -/
def procPagetable (m : Kmem) (tf : Frame) : Except Fault (Uvm × TopPages) := do
  let u ← Uvm.uvmcreate m
  let (trampoline, u) ← u.walkAlloc TRAMPOLINE
  let (found, u) ← u.walkAlloc TRAPFRAME
  return (u, ⟨trampoline, if found then some tf else none⟩)

namespace TopPages

/-- `uvmunmap` of one page, which has an entry or not. -/
def unmap (pt : PageTable) (va : Nat) (mapped : Bool) : Except Fault Unit :=
  if !pt.reaches va then .error (.panic "uvmunmap: walk")
  else if !mapped then .error (.panic "uvmunmap: not mapped")
  else .ok ()

/-- Free a process's page table, and free the physical memory it refers to. -/
def procFreepagetable (top : TopPages) (u : Uvm) (sz : Nat) : Except Fault Kmem := do
  unmap u.pagetable TRAMPOLINE top.trampoline
  unmap u.pagetable TRAPFRAME top.trapframe.isSome
  u.freeUser sz

end TopPages

end Riscv2os.Xv7
