import Mathlib.Data.BitVec
import Riscv2os.Xv7.Vm

/-!
# Open files and in-memory inodes

The file table of `file.c`, and of each entry of the inode cache what a mapping
uses: its reference count and the content of the file. Reads and writes move
bytes between a file and one page of physical memory; the blocks below them are
left out, with the panic of a full disk.
-/

namespace Riscv2os.Xv7

open Riscv2os.Std

/-- Open files per process. -/
abbrev NOFILE : Nat := 16

/-- Open files per system. -/
abbrev NFILE : Nat := 100

/-- The largest file, in bytes. -/
abbrev maxFileBytes : Nat := (11 + 256 + 256 * 256) * BSIZE

/-- `FD_NONE` and the other types of a file. -/
inductive FileType where
  | none | pipe | inode | device | sock
deriving DecidableEq, Repr

/-- An entry of the file table. -/
structure File where
  type : FileType := .none
  ref : Int := 0
  readable : Bool := false
  writable : Bool := false
  ip : Fin NINODE := 0

/-- An entry of the inode cache. -/
structure Inode where
  ref : Int := 0
  size : Nat := 0
  data : Nat → UInt8 := fun _ => 0

namespace Inode

/-- Copy `n` bytes at offset `off` to the start of a page. Both numbers are of type
`uint`. The result is what the C function returns. -/
def readi (ip : Inode) (dst : Page) (off n : Nat) : Page × Int :=
  if off > ip.size ∨ (off + n) % 2 ^ 32 < off then (dst, -1)
  else
    let n := if (off + n) % 2 ^ 32 > ip.size then ip.size - off else n
    (fun k => if k.val < n then ip.data (off + k) else dst k, n)

/-- Copy the first `n` bytes of a page to offset `off`. -/
def writei (ip : Inode) (src : Page) (off n : Nat) : Inode × Int :=
  if off > ip.size ∨ (off + n) % 2 ^ 32 < off then (ip, -1)
  else if (off + n) % 2 ^ 32 > maxFileBytes then (ip, -1)
  else
    ({ ip with
        data := fun k => if off ≤ k ∧ k < off + n then src.byte (k - off) else ip.data k
        size := if n > 0 ∧ off + n > ip.size then off + n else ip.size },
      n)

end Inode

/-- The file table and the inode cache. -/
structure Ftable where
  file : Fin NFILE → File
  inode : Fin NINODE → Inode

namespace Ftable

/-- Change one file. -/
def updateFile (t : Ftable) (f : Fin NFILE) (change : File → File) : Ftable :=
  { t with file := Function.update t.file f (change (t.file f)) }

/-- Change one inode. -/
def updateInode (t : Ftable) (ip : Fin NINODE) (change : Inode → Inode) : Ftable :=
  { t with inode := Function.update t.inode ip (change (t.inode ip)) }

/-- Allocate a file structure. -/
def filealloc (t : Ftable) : Option (Fin NFILE × Ftable) :=
  match (List.finRange NFILE).find? fun f => (t.file f).ref = 0 with
  | some f => some (f, t.updateFile f fun file => { file with ref := 1 })
  | none => none

/-- Increment ref count for file `f`. -/
def filedup (t : Ftable) (f : Fin NFILE) : Except Fault Ftable :=
  if (t.file f).ref < 1 then .error (.panic "filedup")
  else .ok (t.updateFile f fun file => { file with ref := file.ref + 1 })

/-- Increment reference count for an inode. -/
def idup (t : Ftable) (ip : Fin NINODE) : Ftable :=
  t.updateInode ip fun inode => { inode with ref := inode.ref + 1 }

/-- Drop a reference to an in-memory inode. What becomes of the content after the
last one does not matter: `ilock` refuses the entry. -/
def iput (t : Ftable) (ip : Fin NINODE) : Ftable :=
  t.updateInode ip fun inode => { inode with ref := inode.ref - 1 }

/-- The check of `ilock` that a caller can fail. -/
def ilock (t : Ftable) (ip : Fin NINODE) : Except Fault Unit :=
  if (t.inode ip).ref < 1 then .error (.panic "ilock") else .ok ()

/-- Close file `f`: decrement ref count, close when it reaches 0. -/
def fileclose (t : Ftable) (f : Fin NFILE) : Except Fault Ftable :=
  let ff := t.file f
  if ff.ref < 1 then .error (.panic "fileclose")
  else if ff.ref - 1 > 0 then .ok (t.updateFile f fun file => { file with ref := file.ref - 1 })
  else
    let t := t.updateFile f fun file => { file with ref := 0, type := .none }
    match ff.type with
    | .inode | .device => .ok (t.iput ff.ip)
    | .none | .pipe | .sock => .ok t

end Ftable

end Riscv2os.Xv7
