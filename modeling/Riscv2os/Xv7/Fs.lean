import Riscv2os.Std.Loops
import Riscv2os.Xv7.Kernel

/-!
# Blocks and inodes of the file system

The block allocator, the inodes and their content, from `fs.c`. The state is what the buffer
cache and the inode table show: `bread` returns `block`, and a buffer that is changed is changed
there. The log is left out, with the panics of a transaction that is too big. The table of inodes
is given by the inode number: an entry with no reference is a free one, and there are `NINODE`
entries. The calls are those of one process after another, so that the locks are left out.
-/

namespace Riscv2os.Xv7

open Riscv2os.Std

def NDIRECT : Nat := 11

/-- The block numbers in a block. -/
def NINDIRECT : Nat := BSIZE / 4

def NDOUBLE_INDIRECT : Nat := NINDIRECT * NINDIRECT

/-- The largest file in blocks. -/
def MAXFILE : Nat := NDIRECT + NINDIRECT + NDOUBLE_INDIRECT

/-- The entries of `addrs`. -/
def NADDRS : Nat := NDIRECT + 2

/-- The 32-bit words of a `struct dinode`. -/
def DINODE_WORDS : Nat := 3 + NADDRS

/-- Inodes per block. -/
def IPB : Nat := BSIZE / (4 * DINODE_WORDS)

/-- Bits of the free map per block. -/
def BPB : Nat := BSIZE * 8

/-- The fields of the super block that the functions below read, and `nblocks`, which says where
the data blocks begin. -/
structure Superblock where
  size : Nat
  nblocks : Nat
  ninodes : Nat
  inodestart : Nat
  bmapstart : Nat
deriving DecidableEq, Repr

namespace Superblock

/-- Block containing an inode. -/
def IBLOCK (sb : Superblock) (inum : Nat) : Nat := inum / IPB + sb.inodestart

/-- Block of the free map containing the bit of a block. -/
def BBLOCK (sb : Superblock) (b : Nat) : Nat := b / BPB + sb.bmapstart

end Superblock

/-- An inode on disk, and the fields of an inode in memory that are copied from it. -/
structure Dinode where
  type : BitVec 16
  major : BitVec 16
  minor : BitVec 16
  nlink : BitVec 16
  size : Nat
  addrs : Nat → Nat

namespace Dinode

/-- The words of the inode on disk. -/
def words (ip : Dinode) : Nat → Nat
  | 0 => ip.type.toNat + 2 ^ 16 * ip.major.toNat
  | 1 => ip.minor.toNat + 2 ^ 16 * ip.nlink.toNat
  | 2 => ip.size
  | i + 3 => ip.addrs i

/-- The inode with these words. -/
def ofWords (words : Nat → Nat) : Dinode where
  type := .ofNat 16 (words 0)
  major := .ofNat 16 (words 0 / 2 ^ 16)
  minor := .ofNat 16 (words 1)
  nlink := .ofNat 16 (words 1 / 2 ^ 16)
  size := words 2
  addrs i := if i < NADDRS then words (i + 3) else 0

/-- Store a block number. -/
def setAddr (ip : Dinode) (i addr : Nat) : Dinode :=
  { ip with addrs := Function.update ip.addrs i addr }

end Dinode

/-- An entry of the inode table. -/
structure Icache where
  ref : Nat
  valid : Bool
  inode : Dinode

/-- The file system as a process sees it. -/
structure Fs where
  sb : Superblock
  block : Nat → Block
  icache : Nat → Icache

namespace Fs

/-- The inode in memory. -/
def ip (s : Fs) (inum : Nat) : Dinode := (s.icache inum).inode

/-- Change a buffer. -/
def setBlock (s : Fs) (b : Nat) (data : Block) : Fs :=
  { s with block := Function.update s.block b data }

/-- Change an entry of the inode table. -/
def setEntry (s : Fs) (inum : Nat) (entry : Icache) : Fs :=
  { s with icache := Function.update s.icache inum entry }

/-- Change an inode in memory. -/
def setIp (s : Fs) (inum : Nat) (ip : Dinode) : Fs :=
  s.setEntry inum { s.icache inum with inode := ip }

/-- The bit of a block in the free map. -/
def isUsed (s : Fs) (b : Nat) : Bool := (s.block (s.sb.BBLOCK b)).bit (b % BPB)

/-- Set or clear the bit of a block in the free map. -/
def setUsed (s : Fs) (b : Nat) (used : Bool) : Fs :=
  s.setBlock (s.sb.BBLOCK b) ((s.block (s.sb.BBLOCK b)).setBit (b % BPB) used)

/-- Zero a block. -/
def bzero (s : Fs) (b : Nat) : Fs := s.setBlock b fun _ => 0

/-- The first block whose bit is clear. The two loops of `balloc` visit the bits in order. -/
def firstFree (s : Fs) : Option Nat := (List.range s.sb.size).find? fun b => !s.isUsed b

/-- Allocate a zeroed disk block. -/
def balloc (s : Fs) : Except Fault (Nat × Fs) :=
  match s.firstFree with
  | some b => .ok (b, (s.setUsed b true).bzero b)
  | none => .error (.panic "balloc: out of blocks")

/-- Free a disk block. -/
def bfree (s : Fs) (b : Nat) : Except Fault Fs :=
  if s.isUsed b then .ok (s.setUsed b false) else .error (.panic "freeing free block")

/-- The inode on disk. -/
def dinode (s : Fs) (inum : Nat) : Dinode :=
  .ofWords fun i => (s.block (s.sb.IBLOCK inum)).word (DINODE_WORDS * (inum % IPB) + i)

/-- Store the words of an inode on disk. -/
def setDinode (s : Fs) (inum : Nat) (words : Nat → Nat) : Fs :=
  s.setBlock (s.sb.IBLOCK inum)
    ((s.block (s.sb.IBLOCK inum)).setWords (DINODE_WORDS * (inum % IPB)) DINODE_WORDS words)

/-- Copy a modified in-memory inode to disk. -/
def iupdate (s : Fs) (inum : Nat) : Fs := s.setDinode inum (s.ip inum).words

/-- The entries of the inode table that are in use. -/
def held (s : Fs) : Nat :=
  (List.range s.sb.ninodes).countP fun inum => decide (0 < (s.icache inum).ref)

/-- Find the inode with this number, without reading it from disk. -/
def iget (s : Fs) (inum : Nat) : Except Fault Fs :=
  if 0 < (s.icache inum).ref then
    .ok (s.setEntry inum { s.icache inum with ref := (s.icache inum).ref + 1 })
  else if s.held < NINODE then
    .ok (s.setEntry inum { s.icache inum with ref := 1, valid := false })
  else .error (.panic "iget: no inodes")

/-- Allocate an inode and mark it as allocated by giving it a type. -/
def ialloc (s : Fs) (type : BitVec 16) : Except Fault (Nat × Fs) :=
  match (List.range' 1 (s.sb.ninodes - 1)).find? fun inum => (s.dinode inum).type == 0 with
  | some inum => do
      let s ← (s.setDinode inum fun i => if i = 0 then type.toNat else 0).iget inum
      .ok (inum, s)
  | none => .error (.panic "ialloc: no inodes")

/-- Read an inode from disk if necessary. -/
def ilock (s : Fs) (inum : Nat) : Except Fault Fs :=
  if (s.icache inum).ref < 1 then .error (.panic "ilock")
  else if (s.icache inum).valid then .ok s
  else if (s.dinode inum).type = 0 then .error (.panic "ilock: no type")
  else .ok (s.setEntry inum { s.icache inum with valid := true, inode := s.dinode inum })

/-- The entry of `addrs`, after a block has been allocated for it if there was none. -/
def bmapAddr (s : Fs) (inum i : Nat) : Except Fault (Nat × Fs) :=
  if (s.ip inum).addrs i = 0 then do
    let (addr, s) ← s.balloc
    .ok (addr, s.setIp inum ((s.ip inum).setAddr i addr))
  else .ok ((s.ip inum).addrs i, s)

/-- The entry of an indirect block, after a block has been allocated for it if there was none. -/
def bmapEntry (s : Fs) (b i : Nat) : Except Fault (Nat × Fs) :=
  if (s.block b).word i = 0 then do
    let (addr, s) ← s.balloc
    .ok (addr, s.setBlock b ((s.block b).setWord i addr))
  else .ok ((s.block b).word i, s)

/-- The disk block address of a block of an inode. If there is no such block, `bmap` allocates
one. -/
def bmap (s : Fs) (inum bn : Nat) : Except Fault (Nat × Fs) :=
  if bn < NDIRECT then s.bmapAddr inum bn
  else if bn - NDIRECT < NINDIRECT then do
    let (addr, s) ← s.bmapAddr inum NDIRECT
    s.bmapEntry addr (bn - NDIRECT)
  else if bn - NDIRECT - NINDIRECT < NDOUBLE_INDIRECT then do
    let (addr, s) ← s.bmapAddr inum (NDIRECT + 1)
    let (addr, s) ← s.bmapEntry addr ((bn - NDIRECT - NINDIRECT) / NINDIRECT)
    s.bmapEntry addr ((bn - NDIRECT - NINDIRECT) % NINDIRECT)
  else .error (.panic "bmap: out of range")

/-- Free a direct block. -/
def truncDirect (inum : Nat) (s : Fs) (i : Nat) : Except Fault Fs :=
  if (s.ip inum).addrs i ≠ 0 then do
    let s ← s.bfree ((s.ip inum).addrs i)
    .ok (s.setIp inum ((s.ip inum).setAddr i 0))
  else .ok s

/-- Free the blocks of the indirect block, and the indirect block. -/
def truncIndirect (inum : Nat) (s : Fs) : Except Fault Fs :=
  let addr := (s.ip inum).addrs NDIRECT
  if addr ≠ 0 then do
    let s ← (List.range NINDIRECT).foldlM
      (fun s (j : Nat) => if (s.block addr).word j ≠ 0 then s.bfree ((s.block addr).word j) else .ok s) s
    let s ← s.bfree addr
    .ok (s.setIp inum ((s.ip inum).setAddr NDIRECT 0))
  else .ok s

/-- Truncate an inode. `addrs[NDIRECT + 1]` stays. -/
def itrunc (s : Fs) (inum : Nat) : Except Fault Fs := do
  let s ← (List.range NDIRECT).foldlM (truncDirect inum) s
  let s ← truncIndirect inum s
  .ok ((s.setIp inum { s.ip inum with size := 0 }).iupdate inum)

/-- Free an inode and its content. -/
def iputFree (s : Fs) (inum : Nat) : Except Fault Fs := do
  let s ← s.itrunc inum
  let s := (s.setIp inum { s.ip inum with type := 0 }).iupdate inum
  .ok (s.setEntry inum { s.icache inum with valid := false })

/-- Drop a reference to an in-memory inode. If it was the last reference and the inode has no
links, free the inode. -/
def iput (s : Fs) (inum : Nat) : Except Fault Fs := do
  let s ← (if (s.icache inum).ref = 1 ∧ (s.icache inum).valid ∧ (s.ip inum).nlink = 0
    then s.iputFree inum else .ok s)
  .ok (s.setEntry inum { s.icache inum with ref := (s.icache inum).ref - 1 })

/-- The loop of `readi`, which returns the bytes at `dst`. `writable` of them can be written. -/
def readLoop (inum n writable : Nat) :
    Nat → Nat → Nat → List UInt8 → Fs → Except Fault (List UInt8 × Fs)
  | 0, tot, _, dst, s => if tot < n then .error .endless else .ok (dst, s)
  | rounds + 1, tot, off, dst, s =>
      if tot < n then do
        let (addr, s) ← s.bmap inum (off / BSIZE)
        let m := min (n - tot) (BSIZE - off % BSIZE)
        let bytes := (s.block addr).slice (off % BSIZE) m
        -- `either_copyout` writes what it can before it fails
        if writable < tot + m then .ok (dst ++ bytes.take (writable - tot), s)
        else readLoop inum n writable rounds (tot + m) (off + m) (dst ++ bytes) s
      else .ok (dst, s)

/-- Read data from an inode. -/
def readi (s : Fs) (inum writable off n : Nat) : Except Fault (Int × List UInt8 × Fs) :=
  if (s.ip inum).size < off ∨ 2 ^ 32 ≤ off + n then .ok (-1, [], s)
  else
    let n := if (s.ip inum).size < off + n then (s.ip inum).size - off else n
    do
      let (dst, s) ← readLoop inum n writable n 0 off [] s
      .ok (Int.bmod n (2 ^ 32), dst, s)

/-- The loop of `writei`, which returns the offset behind the last block that it copied. Of the
`n` bytes at `src`, those in the list can be read. -/
def writeLoop (inum n : Nat) (src : List UInt8) : Nat → Nat → Nat → Fs → Except Fault (Nat × Fs)
  | 0, tot, off, s => if tot < n then .error .endless else .ok (off, s)
  | rounds + 1, tot, off, s =>
      if tot < n then do
        let (addr, s) ← s.bmap inum (off / BSIZE)
        let m := min (n - tot) (BSIZE - off % BSIZE)
        let bytes := (src.drop tot).take m
        let s := s.setBlock addr ((s.block addr).splice (off % BSIZE) bytes)
        -- `either_copyin` reads what it can before it fails
        if bytes.length < m then .ok (off, s)
        else writeLoop inum n src rounds (tot + m) (off + m) s
      else .ok (off, s)

/-- Write data to an inode. -/
def writei (s : Fs) (inum : Nat) (src : List UInt8) (off n : Nat) : Except Fault (Int × Fs) :=
  if (s.ip inum).size < off ∨ 2 ^ 32 ≤ off + n then .ok (-1, s)
  else if MAXFILE * BSIZE < off + n then .ok (-1, s)
  else do
    let (off, s) ← writeLoop inum n src n 0 off s
    if 0 < n then
      let s := if (s.ip inum).size < off then s.setIp inum { s.ip inum with size := off } else s
      .ok (Int.bmod n (2 ^ 32), s.iupdate inum)
    else .ok (Int.bmod n (2 ^ 32), s)

end Fs

end Riscv2os.Xv7
