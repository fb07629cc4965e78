import Riscv2os.Std.Bytes

/-!
# What the xv7 kernel modules share

The constants of `param.h` and `fs.h`, disk blocks, and the ways in which a
kernel function fails to return. Functions of the kernel are modelled in
`Except Fault`: the result is a value only where the C function returns.
-/

namespace Riscv2os.Xv7

open Riscv2os.Std

/-- Maximum number of blocks any file-system operation writes. -/
def MAXOPBLOCKS : Nat := 10

/-- Maximum number of data blocks in the on-disk log. -/
def LOGSIZE : Nat := MAXOPBLOCKS * 3

/-- Size of the disk block cache. -/
def NBUF : Nat := MAXOPBLOCKS * 3

theorem NBUF_pos : 0 < NBUF := by decide

/-- Maximum number of active i-nodes. -/
abbrev NINODE : Nat := 50

instance : NeZero NINODE := ⟨by decide⟩

/-- Size of a disk block in bytes. -/
def BSIZE : Nat := 1024

/-- Bytes per page. -/
abbrev PGSIZE : Nat := 4096

/-- The first address of physical memory. -/
abbrev KERNBASE : Nat := 0x80000000

/-- The end of physical memory. -/
abbrev PHYSTOP : Nat := KERNBASE + 128 * 1024 * 1024

/-- The content of one disk block. -/
abbrev Block := Bytes BSIZE

/-- A block of one of the disks. -/
structure BlockAddr where
  dev : Nat
  blockno : Nat
deriving DecidableEq, Repr

/-- The content of all disks. -/
abbrev Disk := BlockAddr → Block

/-- Why a kernel function does not return. -/
inductive Fault where
  /-- A call of `panic` with this message. -/
  | panic (message : String)
  /-- A sleep that only another process could end. -/
  | blocked
  /-- An access outside the bounds of an array. -/
  | outOfBounds
  /-- A null pointer is dereferenced. -/
  | nullPointer
  /-- A loop that never ends. -/
  | endless
  /-- User data is taken for data of the kernel. -/
  | wild
deriving DecidableEq, Repr

end Riscv2os.Xv7
