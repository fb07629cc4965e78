import Riscv2os.Xv7.Mkfs

/-!
# The inodes of an image that is built

How many files `ffs_build` and `mkfs` can take before `ialloc` runs out of inodes, which it does not check.
The root directory has inode 1 and the files have the inodes from 2 on, so the file with index 198 would get
inode 200, which the super block does not count. A build reaches it exactly if the files in front of it are
all put into the image, which depends on their names, their sizes and the blocks that they need.
-/

namespace Riscv2os.Xv7

open Riscv2os.Std

/-- A file on the command line, with what is read from it unless it cannot be opened. -/
structure Argument where
  path : List UInt8
  content : Option (List UInt8)

/-- How many bytes are read from the file. -/
def Argument.size (a : Argument) : Nat := (a.content.getD []).length

/-- A file that can be opened. -/
def InputFile.argument (file : InputFile) : Argument := ⟨file.path, some file.content⟩

namespace Image

variable {fmt : Format} {s s' : Image} {inode : Nat → Dinode} {own : Nat × Place → Option Nat} {inum : Nat}

variable {entries : Nat} {a : Argument} {args : List Argument}

end Image

end Riscv2os.Xv7
