import Riscv2os.Std.BumpAllocator
import Riscv2os.Xv7.Directory

/-!
# The image that `mkfs` builds

`mkfs.c` of `xv7`, and its copy `ffs.c`, which has other constants and an older layout of inodes. The
image is given by its sectors. A run ends early where the program exits or an assertion fails.
-/

namespace Riscv2os.Xv7

open Riscv2os.Std

/-- The two programs. -/
inductive Format where
  | mkfs
  | ffs
deriving DecidableEq, Repr

namespace Format

/-- Size of the file system in blocks. -/
def FSSIZE : Format → Nat
  | .mkfs => 200000
  | .ffs => 1000

def NDIRECT : Format → Nat
  | .mkfs => 11
  | .ffs => 12

/-- The largest file in blocks. -/
def MAXFILE : Format → Nat
  | .mkfs => 11 + NINDIRECT + NINDIRECT * NINDIRECT
  | .ffs => 12 + NINDIRECT

def NINODES : Nat := 200

def nbitmap (fmt : Format) : Nat := fmt.FSSIZE / (BSIZE * 8) + 1

def ninodeblocks : Nat := NINODES / IPB + 1

def nlog : Nat := LOGSIZE

/-- Number of meta blocks: boot, super block, log, inodes, bitmap. -/
def nmeta (fmt : Format) : Nat := 2 + nlog + ninodeblocks + fmt.nbitmap

theorem nmeta_pos (fmt : Format) : 0 < fmt.nmeta := by
  unfold nmeta
  omega

/-- Number of data blocks. -/
def nblocks (fmt : Format) : Nat := fmt.FSSIZE - fmt.nmeta

def inodestart : Nat := 2 + nlog

def bmapstart : Nat := 2 + nlog + ninodeblocks

/-- The words of the super block. -/
def sb (fmt : Format) : List Nat :=
  [0x10203040, fmt.FSSIZE, fmt.nblocks, NINODES, nlog, 2, inodestart, bmapstart]

end Format

/-- Why a run of `mkfs` ends early. -/
inductive Abort where
  /-- `assert`. -/
  | assertion
  /-- `exit(1)`, when a sector cannot be read. -/
  | exit
  /-- The array `indirect` has no such entry. -/
  | outOfBounds
deriving DecidableEq, Repr

/-- The image and the two counters. -/
structure Image where
  sect : Nat → Block
  freeinode : Nat
  freeblock : Nat

namespace Image

/-- Read a sector. -/
def rsect (fmt : Format) (s : Image) (sec : Nat) : Except Abort Block :=
  if sec < fmt.FSSIZE then .ok (s.sect sec) else .error .exit

/-- Write a sector. -/
def wsect (s : Image) (sec : Nat) (buf : Block) : Image :=
  { s with sect := Function.update s.sect sec buf }

/-- Block containing inode `inum`. -/
def IBLOCK (inum : Nat) : Nat := inum / IPB + Format.inodestart

/-- Read an inode. `rsect` finds the block of every inode below `NINODES` (`IBLOCK_lt`), so its exit is left out. -/
def rinode (s : Image) (inum : Nat) : Dinode :=
  .ofWords fun i => (s.sect (IBLOCK inum)).word (DINODE_WORDS * (inum % IPB) + i)

/-- Write an inode; the exit of `rsect` is left out as in `rinode`. -/
def winode (s : Image) (inum : Nat) (ip : Dinode) : Image :=
  s.wsect (IBLOCK inum)
    ((s.sect (IBLOCK inum)).setWords (DINODE_WORDS * (inum % IPB)) DINODE_WORDS ip.words)

/-- Allocate an inode. -/
def ialloc (s : Image) (type : BitVec 16) : Nat × Image :=
  (s.freeinode, { s with freeinode := s.freeinode + 1 }.winode s.freeinode ⟨type, 0, 0, 1, 0, fun _ => 0⟩)

/-- `freeblock++`. -/
def bump (s : Image) : Image := { s with freeblock := s.freeblock + 1 }

/-- The block for block `fbn` of a file, which `iappend` allocates if there is none. -/
def slot (fmt : Format) (s : Image) (din : Dinode) (fbn : Nat) : Except Abort (Image × Dinode × Nat) :=
  if fbn < fmt.NDIRECT then
    let r := if din.addrs fbn = 0 then (s.bump, din.setAddr fbn s.freeblock) else (s, din)
    .ok (r.1, r.2, r.2.addrs fbn)
  else
    let r := if din.addrs fmt.NDIRECT = 0 then (s.bump, din.setAddr fmt.NDIRECT s.freeblock) else (s, din)
    let b := r.2.addrs fmt.NDIRECT
    do
      let indirect ← r.1.rsect fmt b
      if fbn - fmt.NDIRECT < NINDIRECT then
        if indirect.word (fbn - fmt.NDIRECT) = 0 then
          let indirect := indirect.setWord (fbn - fmt.NDIRECT) r.1.freeblock
          .ok (r.1.bump.wsect b indirect, r.2, indirect.word (fbn - fmt.NDIRECT))
        else .ok (r.1, r.2, indirect.word (fbn - fmt.NDIRECT))
      else .error .outOfBounds

/-- The loop of `iappend`. -/
def appendLoop (fmt : Format) (s : Image) (din : Dinode) (off : Nat) (p : List UInt8) :
    Except Abort (Image × Dinode × Nat) :=
  if _more : 0 < p.length then
    let fbn := off / BSIZE
    if fbn < fmt.MAXFILE then do
      let (s, din, x) ← s.slot fmt din fbn
      let n1 := min p.length ((fbn + 1) * BSIZE - off)
      let buf ← s.rsect fmt x
      let s := s.wsect x (buf.splice (off - fbn * BSIZE) (p.take n1))
      appendLoop fmt s din (off + n1) (p.drop n1)
    else .error .assertion
  else .ok (s, din, off)
  termination_by p.length
  decreasing_by
    simp only [List.length_drop, BSIZE]
    omega

/-- Append bytes to a file. -/
def iappend (fmt : Format) (s : Image) (inum : Nat) (p : List UInt8) : Except Abort Image := do
  let din := s.rinode inum
  let (s, din, off) ← s.appendLoop fmt din din.size p
  .ok (s.winode inum { din with size := off })

/-- Append a file, a buffer at a time. -/
def appendFile (fmt : Format) (s : Image) (inum : Nat) (content : List UInt8) : Except Abort Image :=
  if _more : 0 < content.length then do
    let s ← s.iappend fmt inum (content.take BSIZE)
    appendFile fmt s inum (content.drop BSIZE)
  else .ok s
  termination_by content.length
  decreasing_by simp only [List.length_drop, BSIZE]; omega

end Image

/-- A file that is put into the image: an argument of the program, and what is read. -/
structure InputFile where
  path : List UInt8
  content : List UInt8

/-- The name without the directory before the first slash, or without `user/`. -/
def shortname (fmt : Format) (path : List UInt8) : List UInt8 :=
  match fmt with
  | .mkfs => if 47 ∈ path then (path.dropWhile (· ≠ 47)).tail else path
  | .ffs => if [117, 115, 101, 114, 47].isPrefixOf path then path.drop 5 else path

namespace Image

/-- Put a file into the image. -/
def addFile (fmt : Format) (s : Image) (file : InputFile) : Except Abort Image :=
  let name := shortname fmt file.path
  if 47 ∈ name then .error .assertion
  else do
    -- the binaries are named `_rm`, `_cat` and so on
    let name := if name.head? = some 95 then name.tail else name
    let (inum, s) := s.ialloc 2
    let s ← s.iappend fmt 1 (Dirent.bytes inum (.ofList name))
    s.appendFile fmt inum file.content

/-- A block of the free map whose first bits are set. -/
def bitmap (used : Nat) : Block := (List.range used).foldl (fun buf i => buf.setBit i true) fun _ => 0

/-- Mark the first blocks as used. -/
def balloc (s : Image) (used : Nat) : Except Abort Image :=
  if used < BSIZE * 8 then
    .ok (s.wsect Format.bmapstart (bitmap used))
  else .error .assertion

/-- Round the size of the root directory. -/
def fixRoot (s : Image) : Image :=
  let din := s.rinode 1
  s.winode 1 { din with size := (din.size / BSIZE + 1) * BSIZE }

/-- The zeroed image with its super block. -/
def start (fmt : Format) : Image where
  sect := Function.update (fun _ _ => 0) 1
    (Bytes.setWords (fun _ => 0) 0 fmt.sb.length fun i => fmt.sb.getD i 0)
  freeinode := 1
  freeblock := fmt.nmeta

/-- Build an image. -/
def mkfs (fmt : Format) (files : List InputFile) : Except Abort Image := do
  let (rootino, s) := (start fmt).ialloc 1
  if rootino ≠ 1 then .error .assertion
  else
    let s ← s.iappend fmt rootino (Dirent.bytes rootino (.ofList [46]))
    let s ← s.iappend fmt rootino (Dirent.bytes rootino (.ofList [46, 46]))
    let s ← files.foldlM (addFile fmt) s
    let s := s.fixRoot
    s.balloc s.freeblock

/-- The fields of an inode fit into their words. -/
structure Stored (ip : Dinode) : Prop where
  size : ip.size < 2 ^ 32
  addrs : ∀ i, ip.addrs i < 2 ^ 32
  none : ∀ i, NADDRS ≤ i → ip.addrs i = 0

variable {fmt : Format} {s s' : Image} {ip din : Dinode} {inum : Nat}

theorem ofWords_words (stored : Stored ip) {words : Nat → Nat}
    (same : ∀ i < DINODE_WORDS, words i = ip.words i % 2 ^ 32) : Dinode.ofWords words = ip := by
  have type := ip.type.isLt
  have major := ip.major.isLt
  have minor := ip.minor.isLt
  have nlink := ip.nlink.isLt
  have w0 : words 0 = _ := same 0 (by decide)
  have w1 : words 1 = _ := same 1 (by decide)
  have w2 : words 2 = _ := same 2 (by decide)
  simp only [Dinode.words] at w0 w1 w2
  rw [Nat.mod_eq_of_lt (by omega)] at w0 w1
  rw [Nat.mod_eq_of_lt stored.size] at w2
  cases ip with
  | mk t mj mn nl size addrs =>
  simp only [Dinode.ofWords, w0, w1, w2, Dinode.mk.injEq]
  refine ⟨?_, ?_, ?_, ?_, trivial, ?_⟩
  · apply BitVec.eq_of_toNat_eq
    simp only [BitVec.toNat_ofNat]
    omega
  · apply BitVec.eq_of_toNat_eq
    simp only [BitVec.toNat_ofNat]
    omega
  · apply BitVec.eq_of_toNat_eq
    simp only [BitVec.toNat_ofNat]
    omega
  · apply BitVec.eq_of_toNat_eq
    simp only [BitVec.toNat_ofNat]
    omega
  · funext i
    split
    · next inside =>
      rw [same (i + 3) (by simp only [DINODE_WORDS, NADDRS] at inside ⊢; omega)]
      exact Nat.mod_eq_of_lt (stored.addrs i)
    · next outside => exact (stored.none i (Nat.le_of_not_lt outside)).symm

theorem stored_rinode (s : Image) (inum : Nat) : Stored (s.rinode inum) where
  size := Bytes.word_lt _ _
  addrs i := by
    unfold rinode Dinode.ofWords
    dsimp only
    split
    · exact Bytes.word_lt _ _
    · decide
  none i outside := by
    unfold rinode Dinode.ofWords
    exact if_neg (Nat.not_lt.mpr outside)

theorem ofWords_congr {words words' : Nat → Nat} (same : ∀ i < DINODE_WORDS, words i = words' i) :
    Dinode.ofWords words = Dinode.ofWords words' := by
  unfold Dinode.ofWords
  rw [same 0 (by decide), same 1 (by decide), same 2 (by decide), Dinode.mk.injEq]
  refine ⟨rfl, rfl, rfl, rfl, rfl, ?_⟩
  funext i
  split
  · next inside => exact same (i + 3) (by simp only [DINODE_WORDS, NADDRS] at inside ⊢; omega)
  · rfl

theorem word_winode (s : Image) (inum other : Nat) (ip : Dinode) {i : Nat} (inside : i < DINODE_WORDS) :
    ((s.winode inum ip).sect (IBLOCK other)).word (DINODE_WORDS * (other % IPB) + i) =
      if other = inum then ip.words i % 2 ^ 32
      else (s.sect (IBLOCK other)).word (DINODE_WORDS * (other % IPB) + i) := by
  have words : DINODE_WORDS = 16 := rfl
  have ipb : IPB = 16 := rfl
  rw [words] at inside
  unfold winode wsect
  rw [words, ipb]
  by_cases block : IBLOCK other = IBLOCK inum
  · have group : other / 16 = inum / 16 := by
      unfold IBLOCK at block
      rw [ipb] at block
      omega
    have bound : 4 * (16 * (other % 16) + i) + 3 < BSIZE := by
      simp only [BSIZE]
      omega
    dsimp only
    rw [block, Function.update_self, Bytes.word_setWords _ _ bound]
    by_cases same : other = inum
    · subst same
      rw [if_pos (by omega), if_pos rfl, Nat.add_sub_cancel_left]
    · rw [if_neg (by omega), if_neg same]
  · have apart : other ≠ inum := fun same => block (by rw [same])
    dsimp only
    rw [Function.update_of_ne block, if_neg apart]

/-- An inode reads back as it was written, and no other changes. -/
theorem rinode_winode (stored : Stored ip) (s : Image) (inum : Nat) :
    (s.winode inum ip).rinode = Function.update s.rinode inum ip := by
  funext other
  by_cases same : other = inum
  · subst same
    rw [Function.update_self]
    exact ofWords_words stored fun i inside => by rw [word_winode s _ _ ip inside, if_pos rfl]
  · rw [Function.update_of_ne same]
    exact ofWords_congr fun i inside => by rw [word_winode s _ _ ip inside, if_neg same]

end Image

/-- What a block of a file is for. -/
inductive Place where
  | data (bn : Nat)
  | indirect
  | double
  /-- An indirect block that the double-indirect block names. -/
  | doubleEntry (i : Nat)
deriving DecidableEq

namespace Place

/-- Whether a file of this size has such a block. -/
def Needed (fmt : Format) (size : Nat) : Place → Prop
  | .data bn => bn * BSIZE < size
  | .indirect => fmt.NDIRECT * BSIZE < size
  | .double => (fmt.NDIRECT + NINDIRECT) * BSIZE < size
  | .doubleEntry i => (fmt.NDIRECT + NINDIRECT + i * NINDIRECT) * BSIZE < size

end Place

namespace Image

/-- An entry of a block of block numbers, zero if there is no such block. -/
def entry (s : Image) (b i : Nat) : Nat := if b = 0 then 0 else (s.sect b).word i

/-- The block that the kernel finds for an inode, zero if there is none. -/
def blockOf (fmt : Format) (s : Image) (ip : Dinode) : Place → Nat
  | .data bn =>
      if bn < fmt.NDIRECT then ip.addrs bn
      else if bn - fmt.NDIRECT < NINDIRECT then s.entry (ip.addrs fmt.NDIRECT) (bn - fmt.NDIRECT)
      else s.entry (s.entry (ip.addrs (fmt.NDIRECT + 1)) ((bn - fmt.NDIRECT - NINDIRECT) / NINDIRECT))
        ((bn - fmt.NDIRECT - NINDIRECT) % NINDIRECT)
  | .indirect => ip.addrs fmt.NDIRECT
  | .double => ip.addrs (fmt.NDIRECT + 1)
  | .doubleEntry i => s.entry (ip.addrs (fmt.NDIRECT + 1)) i

/-- The bit of a block in the free map. -/
def isUsed (s : Image) (b : Nat) : Bool := (s.sect (Format.bmapstart + b / BPB)).bit (b % BPB)

/-- A block that a file of the image has to have. -/
structure Uses (fmt : Format) (s : Image) (inum : Nat) (place : Place) : Prop where
  low : 1 ≤ inum
  high : inum < Format.NINODES
  live : (s.rinode inum).type ≠ 0
  needed : place.Needed fmt (s.rinode inum).size

/-- Every block that a file has to have is there, in the data area and for nothing else, and exactly these
and the meta blocks are marked as used. -/
structure Consistent (fmt : Format) (s : Image) : Prop where
  allocated : ∀ inum place, s.Uses fmt inum place →
    fmt.nmeta ≤ s.blockOf fmt (s.rinode inum) place ∧ s.blockOf fmt (s.rinode inum) place < fmt.FSSIZE
  distinct : ∀ inum place inum' place', s.Uses fmt inum place → s.Uses fmt inum' place' →
    s.blockOf fmt (s.rinode inum) place = s.blockOf fmt (s.rinode inum') place' →
    inum = inum' ∧ place = place'
  used : ∀ b < fmt.FSSIZE, s.isUsed b = true ↔
    b < fmt.nmeta ∨ ∃ inum place, s.Uses fmt inum place ∧ s.blockOf fmt (s.rinode inum) place = b

/-- An inode that `ialloc` has allocated. -/
def Live (s : Image) (inum : Nat) : Prop := 1 ≤ inum ∧ inum < s.freeinode

/-- The inodes and their indirect blocks say which blocks are given to what. -/
structure Maps (fmt : Format) (inode : Nat → Dinode) (s : Image) (own : Nat × Place → Option Nat) :
    Prop where
  bump : Bump own fmt.nmeta s.freeblock
  live : ∀ inum place, own (inum, place) ≠ none → s.Live inum
  direct : ∀ inum, s.Live inum → ∀ bn < fmt.NDIRECT,
    (inode inum).addrs bn = (own (inum, .data bn)).getD 0
  indirect : ∀ inum, s.Live inum → (inode inum).addrs fmt.NDIRECT = (own (inum, .indirect)).getD 0
  entries : ∀ inum b, own (inum, .indirect) = some b → ∀ i < NINDIRECT,
    (s.sect b).word i = (own (inum, .data (fmt.NDIRECT + i))).getD 0
  zero : ∀ b, s.freeblock ≤ b → s.sect b = fun _ => 0
  bitmap : ∀ b, Format.bmapstart ≤ b → b < fmt.nmeta → s.sect b = fun _ => 0

variable {fmt : Format} {s s' : Image} {inode : Nat → Dinode} {own : Nat × Place → Option Nat}
  {inum : Nat}

@[simp] theorem bump_sect (s : Image) : s.bump.sect = s.sect := rfl

@[simp] theorem bump_freeblock (s : Image) : s.bump.freeblock = s.freeblock + 1 := rfl

@[simp] theorem bump_freeinode (s : Image) : s.bump.freeinode = s.freeinode := rfl

@[simp] theorem bump_rinode (s : Image) : s.bump.rinode = s.rinode := rfl

/-- A direct block is allocated. -/
theorem Maps.takeDirect (maps : Maps fmt inode s own) {bn : Nat} (live : s.Live inum)
    (direct : bn < fmt.NDIRECT) (none : own (inum, .data bn) = none) :
    Maps fmt (Function.update inode inum ((inode inum).setAddr bn s.freeblock)) s.bump
      (Function.update own (inum, .data bn) (some s.freeblock)) where
  bump := maps.bump.take none
  live j place owned := by
    by_cases this : (j, place) = (inum, .data bn)
    · cases this
      exact live
    · rw [Function.update_of_ne this] at owned
      exact maps.live j place owned
  direct j liveJ k below := by
    by_cases same : j = inum
    · subst same
      rw [Function.update_self]
      by_cases this : k = bn
      · subst this
        simp [Dinode.setAddr]
      · rw [Function.update_of_ne (by simpa using this), ← maps.direct j liveJ k below]
        exact Function.update_of_ne this ..
    · rw [Function.update_of_ne same, Function.update_of_ne (by simp [same])]
      exact maps.direct j liveJ k below
  indirect j liveJ := by
    have other : Function.update own (inum, Place.data bn) (some s.freeblock) (j, .indirect) =
        own (j, .indirect) := Function.update_of_ne (by simp) ..
    rw [other, ← maps.indirect j liveJ]
    by_cases same : j = inum
    · subst same
      rw [Function.update_self]
      exact Function.update_of_ne (by omega) ..
    · rw [Function.update_of_ne same]
  entries j b owned i inside := by
    rw [Function.update_of_ne (by simp)] at owned
    rw [Function.update_of_ne (by simp; omega)]
    exact maps.entries j b owned i inside
  zero b above := maps.zero b (by simp at above; omega)
  bitmap := maps.bitmap

/-- An indirect block is allocated. It is zero, and then nothing in it is given out. -/
theorem Maps.takeIndirect (maps : Maps fmt inode s own) (live : s.Live inum)
    (none : own (inum, .indirect) = none)
    (unused : ∀ i < NINDIRECT, own (inum, .data (fmt.NDIRECT + i)) = Option.none) :
    Maps fmt (Function.update inode inum ((inode inum).setAddr fmt.NDIRECT s.freeblock)) s.bump
      (Function.update own (inum, .indirect) (some s.freeblock)) where
  bump := maps.bump.take none
  live j place owned := by
    by_cases this : (j, place) = (inum, .indirect)
    · cases this
      exact live
    · rw [Function.update_of_ne this] at owned
      exact maps.live j place owned
  direct j liveJ k below := by
    have other : Function.update own (inum, Place.indirect) (some s.freeblock) (j, .data k) =
        own (j, .data k) := Function.update_of_ne (by simp) ..
    rw [other, ← maps.direct j liveJ k below]
    by_cases same : j = inum
    · subst same
      rw [Function.update_self]
      exact Function.update_of_ne (by omega) ..
    · rw [Function.update_of_ne same]
  indirect j liveJ := by
    by_cases same : j = inum
    · subst same
      simp [Dinode.setAddr]
    · rw [Function.update_of_ne same, Function.update_of_ne (by simp [same])]
      exact maps.indirect j liveJ
  entries j b owned i inside := by
    rw [Function.update_of_ne (by simp)]
    by_cases same : j = inum
    · subst same
      rw [Function.update_self] at owned
      cases owned
      rw [bump_sect, maps.zero _ (le_refl _), unused i inside]
      simp [Bytes.word, Bytes.byte]
    · rw [Function.update_of_ne (by simp [same])] at owned
      exact maps.entries j b owned i inside
  zero b above := maps.zero b (by simp at above; omega)
  bitmap := maps.bitmap

/-- A block is allocated whose number stands in an indirect block. -/
theorem Maps.takeEntry (maps : Maps fmt inode s own) {b i : Nat} (inside : i < NINDIRECT)
    (owned : own (inum, .indirect) = some b) (none : own (inum, .data (fmt.NDIRECT + i)) = none)
    (small : s.freeblock < 2 ^ 32) :
    Maps fmt inode (s.bump.wsect b ((s.sect b).setWord i s.freeblock))
      (Function.update own (inum, .data (fmt.NDIRECT + i)) (some s.freeblock)) where
  bump := maps.bump.take none
  live j place owned' := by
    by_cases this : (j, place) = (inum, .data (fmt.NDIRECT + i))
    · cases this
      exact maps.live inum .indirect (by simp [owned])
    · rw [Function.update_of_ne this] at owned'
      exact maps.live j place owned'
  direct j liveJ k below := by
    rw [Function.update_of_ne (by simp; omega)]
    exact maps.direct j liveJ k below
  indirect j liveJ := by
    rw [Function.update_of_ne (by simp)]
    exact maps.indirect j liveJ
  entries j b' owned' k inside' := by
    rw [Function.update_of_ne (by simp)] at owned'
    show (Function.update s.sect b ((s.sect b).setWord i s.freeblock) b').word k = _
    by_cases same : b' = b
    · subst same
      obtain ⟨rfl, -⟩ : j = inum ∧ Place.indirect = .indirect := by
        simpa using maps.bump.injective _ _ _ owned' owned
      rw [Function.update_self]
      by_cases this : k = i
      · subst this
        rw [Function.update_self, Bytes.word_setWord_self _ _ _ ?_, Nat.mod_eq_of_lt small]
        · rfl
        · simp only [NINDIRECT, BSIZE] at inside ⊢
          omega
      · rw [Function.update_of_ne (by simpa using this), Bytes.word_setWord_ne _ _ this]
        exact maps.entries j b' owned k inside'
    · have other : j ≠ inum := by
        rintro rfl
        rw [owned] at owned'
        cases owned'
        exact same rfl
      rw [Function.update_of_ne same, Function.update_of_ne (by simp [other])]
      exact maps.entries j b' owned' k inside'
  zero c above := by
    have used := maps.bump.bounds _ _ owned
    simp only [wsect, bump_freeblock] at above ⊢
    rw [Function.update_of_ne (by omega)]
    exact maps.zero c (by omega)
  bitmap c low high := by
    have used := maps.bump.bounds _ _ owned
    show Function.update s.sect b _ c = _
    rw [Function.update_of_ne (by omega)]
    exact maps.bitmap c low high

/-- A data block is written. -/
theorem Maps.write (maps : Maps fmt inode s own) {bn x : Nat} (owned : own (inum, .data bn) = some x)
    (buf : Block) : Maps fmt inode (s.wsect x buf) own where
  bump := maps.bump
  live := maps.live
  direct := maps.direct
  indirect := maps.indirect
  entries j b owned' k inside := by
    have apart : b ≠ x := by
      rintro rfl
      simpa using maps.bump.injective _ _ _ owned' owned
    show (Function.update s.sect x buf b).word k = _
    rw [Function.update_of_ne apart]
    exact maps.entries j b owned' k inside
  zero c above := by
    have used := maps.bump.bounds _ _ owned
    simp only [wsect] at above ⊢
    rw [Function.update_of_ne (by omega)]
    exact maps.zero c above
  bitmap c low high := by
    have used := maps.bump.bounds _ _ owned
    show Function.update s.sect x buf c = _
    rw [Function.update_of_ne (by omega)]
    exact maps.bitmap c low high

/-- Only the addresses of inodes matter. -/
theorem Maps.congr {inode' : Nat → Dinode} (maps : Maps fmt inode s own)
    (same : ∀ inum, s.Live inum → (inode' inum).addrs = (inode inum).addrs) :
    Maps fmt inode' s own where
  bump := maps.bump
  live := maps.live
  direct j live bn below := by
    rw [same j live]
    exact maps.direct j live bn below
  indirect j live := by
    rw [same j live]
    exact maps.indirect j live
  entries := maps.entries
  zero := maps.zero
  bitmap := maps.bitmap

/-- Fields and addresses that a change of addresses keeps. -/
structure SameFile (din din' : Dinode) : Prop where
  type : din'.type = din.type
  size : din'.size = din.size
  stored : Stored din → Stored din'

theorem SameFile.refl (din : Dinode) : SameFile din din := ⟨rfl, rfl, id⟩

theorem SameFile.trans {a b c : Dinode} (first : SameFile a b) (second : SameFile b c) : SameFile a c :=
  ⟨second.type.trans first.type, second.size.trans first.size, fun stored => second.stored (first.stored stored)⟩

theorem SameFile.setAddr (din : Dinode) {i addr : Nat} (inside : i < NADDRS) (small : addr < 2 ^ 32) :
    SameFile din (din.setAddr i addr) where
  type := rfl
  size := rfl
  stored stored := by
    refine ⟨stored.size, fun j => ?_, fun j outside => ?_⟩
    · by_cases same : j = i
      · subst same
        simpa [Dinode.setAddr] using small
      · simpa [Dinode.setAddr, Function.update_of_ne same] using stored.addrs j
    · have apart : j ≠ i := by omega
      simpa [Dinode.setAddr, Function.update_of_ne apart] using stored.none j outside

/-- How many blocks `iappend` allocates for block `fbn` of a file. -/
def fresh (fmt : Format) (own : Nat × Place → Option Nat) (inum fbn : Nat) : Nat :=
  (if own (inum, .data fbn) = none then 1 else 0) +
    if fmt.NDIRECT ≤ fbn ∧ own (inum, .indirect) = none then 1 else 0

/-- What there is behind the block for block `fbn` of a file. -/
structure Slotted (fmt : Format) (inode : Nat → Dinode) (s : Image) (own : Nat × Place → Option Nat)
    (inum fbn : Nat) (din : Dinode) (s' : Image) (din' : Dinode) (x : Nat)
    (own' : Nat × Place → Option Nat) : Prop where
  maps : Maps fmt (Function.update inode inum din') s' own'
  here : own' (inum, .data fbn) = some x
  owned : ∀ j place, own' (j, place) = none ↔ own (j, place) = none ∧
    ¬ (j = inum ∧ (place = .data fbn ∨ place = .indirect ∧ fmt.NDIRECT ≤ fbn))
  freeblock : s'.freeblock = s.freeblock + fresh fmt own inum fbn
  freeinode : s'.freeinode = s.freeinode
  metaBlocks : ∀ b < fmt.nmeta, s'.sect b = s.sect b
  same : SameFile din din'
  keeps : ∀ q b, own q = some b → own' q = some b
  others : ∀ b, own' (inum, .indirect) ≠ some b → s'.sect b = s.sect b

/-- What is given to somebody stays with him. -/
theorem update_keeps {q : Nat × Place} {next : Nat} (none : own q = Option.none) (q' : Nat × Place) (b : Nat)
    (owned : own q' = some b) : Function.update own q (some next) q' = some b := by
  have apart : q' ≠ q := by
    rintro rfl
    rw [none] at owned
    cases owned
  rw [Function.update_of_ne apart, owned]

theorem slot_direct {din : Dinode} {fbn : Nat} (maps : Maps fmt (Function.update inode inum din) s own)
    (live : s.Live inum) (direct : fbn < fmt.NDIRECT) (small : s.freeblock < 2 ^ 32) :
    ∃ s' din' x own', s.slot fmt din fbn = .ok (s', din', x) ∧
      Slotted fmt inode s own inum fbn din s' din' x own' := by
  have address := maps.direct inum live fbn direct
  rw [Function.update_self] at address
  have ndirect : fmt.NDIRECT < NADDRS := by cases fmt <;> decide
  unfold slot
  rw [if_pos direct]
  cases none : own (inum, .data fbn) with
  | none =>
      rw [none] at address
      have zero : din.addrs fbn = 0 := address
      rw [if_pos zero]
      have after := maps.takeDirect live direct none
      rw [Function.update_idem, Function.update_self] at after
      refine ⟨_, _, _, _, rfl, after, ?_, fun j place => ?_, ?_, rfl, fun _ _ => rfl,
        .setAddr din (by omega) small, update_keeps none, fun _ _ => rfl⟩
      · simp [Dinode.setAddr]
      · by_cases this : (j, place) = (inum, .data fbn)
        · cases this
          simp
        · rw [Function.update_of_ne this]
          simp only [Prod.mk.injEq, not_and] at this
          have direct : ¬ fmt.NDIRECT ≤ fbn := by omega
          simp only [direct, and_false, or_false, not_and]
          exact ⟨fun free => ⟨free, this⟩, And.left⟩
      · simp [fresh, none]
        omega
  | some x =>
      have low := (maps.bump.bounds _ _ none).1
      have positive := fmt.nmeta_pos
      rw [none] at address
      rw [if_neg (by rw [address]; show ¬ x = 0; omega)]
      refine ⟨s, din, _, own, rfl, maps, by rw [none, address]; rfl, fun j place => ?_, ?_, rfl,
        fun _ _ => rfl, .refl din, fun _ _ owned => owned, fun _ _ => rfl⟩
      · constructor
        · intro free
          refine ⟨free, ?_⟩
          rintro ⟨rfl, rfl | ⟨-, above⟩⟩
          · rw [none] at free
            cases free
          · omega
        · exact And.left
      · simp [fresh, none]
        omega

theorem rsect_ok {sec : Nat} (inside : sec < fmt.FSSIZE) : s.rsect fmt sec = .ok (s.sect sec) :=
  if_pos inside

/-- What follows in `slot` when the indirect block is there. -/
theorem slot_entry {din : Dinode} {fbn b : Nat} (maps : Maps fmt (Function.update inode inum din) s own)
    (live : s.Live inum) (above : fmt.NDIRECT ≤ fbn) (inside : fbn - fmt.NDIRECT < NINDIRECT)
    (owned : own (inum, .indirect) = some b) (small : s.freeblock < 2 ^ 32) (room : s.freeblock ≤ fmt.FSSIZE) :
    ∃ s' din' x own', s.slot fmt din fbn = .ok (s', din', x) ∧
      Slotted fmt inode s own inum fbn din s' din' x own' := by
  have address := maps.indirect inum live
  rw [Function.update_self, owned] at address
  have used := maps.bump.bounds _ _ owned
  have positive := fmt.nmeta_pos
  have block : din.addrs fmt.NDIRECT = b := address
  have entry := maps.entries inum b owned _ inside
  rw [Nat.add_sub_cancel' above] at entry
  unfold slot
  rw [if_neg (by omega), if_neg (by omega)]
  dsimp only
  rw [block, rsect_ok (by omega)]
  simp only [bind, Except.bind]
  rw [if_pos inside]
  cases none : own (inum, .data fbn) with
  | none =>
      rw [none] at entry
      have zero : (s.sect b).word (fbn - fmt.NDIRECT) = 0 := entry
      rw [if_pos zero]
      have after := maps.takeEntry inside owned (by rw [Nat.add_sub_cancel' above]; exact none) small
      rw [Nat.add_sub_cancel' above] at after
      refine ⟨_, _, _, _, rfl, after, ?_, fun j place => ?_, ?_, rfl, fun c below => ?_, .refl din,
        update_keeps none, fun c apart => ?_⟩
      · rw [Function.update_self, Bytes.word_setWord_self, Nat.mod_eq_of_lt small]
        simp only [NINDIRECT, BSIZE] at inside ⊢
        omega
      · by_cases this : (j, place) = (inum, .data fbn)
        · cases this
          simp
        · rw [Function.update_of_ne this]
          constructor
          · intro free
            refine ⟨free, ?_⟩
            rintro ⟨rfl, rfl | ⟨rfl, -⟩⟩
            · exact this rfl
            · rw [owned] at free
              cases free
          · exact And.left
      · simp [fresh, none, owned, wsect]
      · exact Function.update_of_ne (by omega) ..
      · rw [Function.update_of_ne (by simp), owned] at apart
        exact Function.update_of_ne (fun same => apart (congrArg some same.symm)) ..
  | some x =>
      rw [none] at entry
      have value : (s.sect b).word (fbn - fmt.NDIRECT) = x := entry
      have low := (maps.bump.bounds _ _ none).1
      rw [if_neg (by omega), value]
      refine ⟨s, din, x, own, rfl, maps, none, fun j place => ?_, ?_, rfl, fun _ _ => rfl, .refl din,
        fun _ _ owned => owned, fun _ _ => rfl⟩
      · constructor
        · intro free
          refine ⟨free, ?_⟩
          rintro ⟨rfl, rfl | ⟨rfl, -⟩⟩
          · rw [none] at free
            cases free
          · rw [owned] at free
            cases free
        · exact And.left
      · simp [fresh, none, owned]

/-- The block for a block of a file is there, or is allocated. -/
theorem slot_spec {din : Dinode} {fbn : Nat} (maps : Maps fmt (Function.update inode inum din) s own)
    (live : s.Live inum) (inside : fbn < fmt.NDIRECT + NINDIRECT)
    (unused : own (inum, .indirect) = none → ∀ i < NINDIRECT, own (inum, .data (fmt.NDIRECT + i)) = none)
    (room : s.freeblock + fresh fmt own inum fbn ≤ fmt.FSSIZE) :
    ∃ s' din' x own', s.slot fmt din fbn = .ok (s', din', x) ∧
      Slotted fmt inode s own inum fbn din s' din' x own' := by
  have size : fmt.FSSIZE < 2 ^ 32 := by cases fmt <;> decide
  by_cases direct : fbn < fmt.NDIRECT
  · exact slot_direct maps live direct (by omega)
  · cases none : own (inum, .indirect) with
    | some b => exact slot_entry maps live (by omega) (by omega) none (by omega) (by omega)
    | none =>
        -- the indirect block comes first
        have address := maps.indirect inum live
        rw [Function.update_self, none] at address
        have zero : din.addrs fmt.NDIRECT = 0 := address
        have after := maps.takeIndirect live none (unused none)
        rw [Function.update_idem, Function.update_self] at after
        have ndirect : fmt.NDIRECT < NADDRS := by cases fmt <;> decide
        have count : fresh fmt own inum fbn = 2 := by
          have free := unused none (fbn - fmt.NDIRECT) (by omega)
          rw [Nat.add_sub_cancel' (by omega)] at free
          simp [fresh, free, none, Nat.le_of_not_lt direct]
        have same := SameFile.setAddr din ndirect (show s.freeblock < 2 ^ 32 by omega)
        have given : (din.setAddr fmt.NDIRECT s.freeblock).addrs fmt.NDIRECT ≠ 0 := by
          have low := maps.bump.ordered
          have positive := fmt.nmeta_pos
          simp only [Dinode.setAddr, Function.update_self]
          omega
        have goes : s.slot fmt din fbn = s.bump.slot fmt (din.setAddr fmt.NDIRECT s.freeblock) fbn := by
          unfold slot
          rw [if_neg direct, if_neg direct, if_pos zero, if_neg given]
        have free : own (inum, .data fbn) = Option.none := by
          have all := unused none (fbn - fmt.NDIRECT) (by omega)
          rwa [Nat.add_sub_cancel' (by omega)] at all
        obtain ⟨s', din', x, own', run, done⟩ := slot_entry after live (Nat.le_of_not_lt direct) (by omega)
          (Function.update_self ..) (show s.freeblock + 1 < 2 ^ 32 by omega)
          (show s.freeblock + 1 ≤ fmt.FSSIZE by omega)
        refine ⟨s', din', x, own', by rw [goes, run], done.maps, done.here, fun j place => ?_, ?_,
          done.freeinode, done.metaBlocks, same.trans done.same,
          fun q b owned => done.keeps q b (update_keeps none q b owned), done.others⟩
        · rw [done.owned]
          by_cases this : (j, place) = (inum, .indirect)
          · cases this
            simp [Nat.le_of_not_lt direct]
          · rw [Function.update_of_ne this]
        · have one : fresh fmt (Function.update own (inum, .indirect) (some s.freeblock)) inum fbn = 1 := by
            simp [fresh, free]
          rw [done.freeblock, one, count]
          rfl

/-- The largest file that `iappend` can build, in bytes. -/
def limit (fmt : Format) : Nat := (fmt.NDIRECT + NINDIRECT) * BSIZE

/-- How many blocks a file of this size has. -/
def need (fmt : Format) (size : Nat) : Nat :=
  (size + (BSIZE - 1)) / BSIZE + if fmt.NDIRECT * BSIZE < size then 1 else 0

theorem need_mono (fmt : Format) {a b : Nat} (le : a ≤ b) : need fmt a ≤ need fmt b := by
  unfold need
  have blocks : (a + (BSIZE - 1)) / BSIZE ≤ (b + (BSIZE - 1)) / BSIZE := Nat.div_le_div_right (by omega)
  split
  · rw [if_pos (by omega)]
    omega
  · omega

/-- The blocks of a file are those that it has to have, and the inodes that are not allocated are free. -/
structure Sound (fmt : Format) (inode : Nat → Dinode) (s : Image) (own : Nat × Place → Option Nat) :
    Prop where
  maps : Maps fmt inode s own
  owned : ∀ inum place, own (inum, place) ≠ none ↔
    s.Live inum ∧ place.Needed fmt (inode inum).size
  small : ∀ inum, s.Live inum → (inode inum).size ≤ limit fmt
  typed : ∀ inum, s.Live inum → (inode inum).type ≠ 0
  free : ∀ inum, s.freeinode ≤ inum → inum < Format.NINODES → (inode inum).type = 0

/-- What more there is in a file when it grows within a block. -/
theorem needed_grow {place : Place} {off off' : Nat} (more : off < off')
    (block : off' ≤ (off / BSIZE + 1) * BSIZE) (small : off' ≤ limit fmt) :
    place.Needed fmt off' ↔ place.Needed fmt off ∨ place = .data (off / BSIZE) ∨
      place = .indirect ∧ fmt.NDIRECT ≤ off / BSIZE := by
  simp only [limit, BSIZE] at *
  cases place with
  | data bn =>
      simp only [Place.Needed, BSIZE, Place.data.injEq, reduceCtorEq, false_and, or_false]
      omega
  | indirect =>
      simp only [Place.Needed, BSIZE, reduceCtorEq, true_and, false_or]
      omega
  | double =>
      simp only [Place.Needed, BSIZE, reduceCtorEq, false_and, or_false]
      omega
  | doubleEntry i =>
      simp only [Place.Needed, BSIZE, reduceCtorEq, false_and, or_false]
      have := Nat.zero_le (i * NINDIRECT)
      omega

theorem need_step {n off off' : Nat} (more : off < off') (block : off' ≤ (off / 1024 + 1) * 1024) :
    (if off ≤ off / 1024 * 1024 then 1 else 0) +
        (if n ≤ off / 1024 ∧ off ≤ n * 1024 then 1 else 0) +
        ((off + 1023) / 1024 + if n * 1024 < off then 1 else 0) =
      (off' + 1023) / 1024 + if n * 1024 < off' then 1 else 0 := by
  split_ifs <;> omega

/-- What `iappend` allocates is what the file has more. -/
theorem fresh_eq {off off' : Nat} (owned : ∀ place, own (inum, place) ≠ none ↔ place.Needed fmt off)
    (more : off < off') (block : off' ≤ (off / BSIZE + 1) * BSIZE) :
    fresh fmt own inum (off / BSIZE) + need fmt off = need fmt off' := by
  have data : own (inum, .data (off / BSIZE)) = none ↔ off ≤ off / BSIZE * BSIZE := by
    rw [← not_iff_not]
    exact (owned _).trans (by simp [Place.Needed])
  have indirect : own (inum, .indirect) = none ↔ off ≤ fmt.NDIRECT * BSIZE := by
    rw [← not_iff_not]
    exact (owned _).trans (by simp [Place.Needed])
  unfold fresh need
  simp only [data, indirect]
  exact need_step more block

/-- What `iappend` has done when it is at an offset: the size of the file is the offset. -/
abbrev At (fmt : Format) (inode : Nat → Dinode) (inum : Nat) (s : Image) (din : Dinode) (off : Nat)
    (own : Nat × Place → Option Nat) : Prop :=
  Sound fmt (Function.update inode inum { din with size := off }) s own

/-- The addresses in an inode do not depend on the size that is not stored yet. -/
theorem At.current {din : Dinode} {off : Nat} (sound : At fmt inode inum s din off own) :
    Maps fmt (Function.update inode inum din) s own := by
  refine sound.maps.congr fun j _ => ?_
  by_cases same : j = inum
  · subst same
    rw [Function.update_self, Function.update_self]
  · rw [Function.update_of_ne same, Function.update_of_ne same]

/-- One round of the loop. -/
theorem At.round {din : Dinode} {off : Nat} (sound : At fmt inode inum s din off own) (live : s.Live inum)
    {off' : Nat} (more : off < off') (block : off' ≤ (off / BSIZE + 1) * BSIZE) (small : off' ≤ limit fmt)
    (room : s.freeblock + need fmt off' ≤ fmt.FSSIZE + need fmt off) :
    ∃ s' din' x own', s.slot fmt din (off / BSIZE) = .ok (s', din', x) ∧ x < fmt.FSSIZE ∧
      (∀ buf, At fmt inode inum (s'.wsect x buf) din' off' own' ∧
        ∀ b < fmt.nmeta, (s'.wsect x buf).sect b = s.sect b) ∧
      s'.freeblock + need fmt off = s.freeblock + need fmt off' ∧ s'.freeinode = s.freeinode ∧
      SameFile din din' := by
  have owned : ∀ place, own (inum, place) ≠ none ↔ place.Needed fmt off := by
    intro place
    rw [sound.owned, Function.update_self]
    exact and_iff_right live
  have count := fresh_eq owned more block
  have unused : own (inum, .indirect) = none →
      ∀ i < NINDIRECT, own (inum, .data (fmt.NDIRECT + i)) = none := by
    intro none i _
    by_contra some
    have this : (fmt.NDIRECT + i) * BSIZE < off := (owned _).mp some
    refine absurd none ((owned _).mpr ?_)
    exact lt_of_le_of_lt (Nat.mul_le_mul_right _ (Nat.le_add_right _ i)) this
  have inside : off / BSIZE < fmt.NDIRECT + NINDIRECT := by
    simp only [limit, BSIZE] at more small ⊢
    omega
  obtain ⟨s', din', x, own', run, done⟩ := slot_spec sound.current live inside unused (by omega)
  have below := (done.maps.bump.bounds _ _ done.here)
  have fits := done.freeblock
  refine ⟨s', din', x, own', run, by omega, fun buf => ⟨?_, fun b low => ?_⟩, by omega, done.freeinode,
    done.same⟩
  · have lives : ∀ j, (s'.wsect x buf).Live j ↔ s.Live j := by
      intro j
      show 1 ≤ j ∧ j < s'.freeinode ↔ _
      rw [done.freeinode]
      exact Iff.rfl
    constructor
    · refine (done.maps.write done.here buf).congr fun j _ => ?_
      by_cases same : j = inum
      · subst same
        rw [Function.update_self, Function.update_self]
      · rw [Function.update_of_ne same, Function.update_of_ne same]
    · intro j place
      rw [lives]
      have before := sound.owned j place
      rw [ne_eq, done.owned, not_and_not_right]
      by_cases same : j = inum
      · subst same
        rw [Function.update_self] at before ⊢
        show _ ↔ _ ∧ place.Needed fmt off'
        rw [needed_grow more block small, ← owned place]
        constructor
        · intro given
          refine ⟨live, ?_⟩
          by_cases free : own (j, place) = none
          · exact .inr (given free).2
          · exact .inl free
        · rintro ⟨-, some | grown⟩ free
          · exact absurd free some
          · exact ⟨rfl, grown⟩
      · rw [Function.update_of_ne same] at before ⊢
        rw [← before]
        simp [same]
    · intro j liveJ
      by_cases same : j = inum
      · subst same
        rw [Function.update_self]
        exact small
      · have before := sound.small j ((lives j).mp liveJ)
        rwa [Function.update_of_ne same] at before ⊢
    · intro j liveJ
      have before := sound.typed j ((lives j).mp liveJ)
      by_cases same : j = inum
      · subst same
        rw [Function.update_self] at before ⊢
        exact done.same.type ▸ before
      · rwa [Function.update_of_ne same] at before ⊢
    · intro j above inodes
      have apart : j ≠ inum := by
        have high := live.2
        have counter : (s'.wsect x buf).freeinode = s.freeinode := done.freeinode
        omega
      have before := sound.free j (done.freeinode ▸ above) inodes
      rwa [Function.update_of_ne apart] at before ⊢
  · have high := below.1
    show Function.update s'.sect x buf b = _
    rw [Function.update_of_ne (by omega)]
    exact done.metaBlocks b low

theorem limit_lt (fmt : Format) : limit fmt < 2 ^ 32 := by cases fmt <;> decide

/-- The loop of `iappend` puts all bytes into the file. -/
theorem appendLoop_spec (p : List UInt8) {din : Dinode} {off : Nat}
    (sound : At fmt inode inum s din off own) (live : s.Live inum) (small : off + p.length ≤ limit fmt)
    (room : s.freeblock + need fmt (off + p.length) ≤ fmt.FSSIZE + need fmt off) :
    ∃ s' din' own', s.appendLoop fmt din off p = .ok (s', din', off + p.length) ∧
      At fmt inode inum s' din' (off + p.length) own' ∧
      s'.freeblock + need fmt off = s.freeblock + need fmt (off + p.length) ∧
      s'.freeinode = s.freeinode ∧ (∀ b < fmt.nmeta, s'.sect b = s.sect b) ∧ SameFile din din' := by
  induction left : p.length using Nat.strong_induction_on generalizing p s din off own with
  | _ n ih =>
  subst left
  by_cases more : 0 < p.length
  · obtain ⟨n1, is⟩ : ∃ n1, min p.length ((off / BSIZE + 1) * BSIZE - off) = n1 := ⟨_, rfl⟩
    have grows : 0 < n1 ∧ n1 ≤ p.length ∧ off + n1 ≤ (off / BSIZE + 1) * BSIZE := by
      simp only [BSIZE] at is ⊢
      omega
    have step := need_mono fmt (show off ≤ off + n1 by omega)
    have rest := need_mono fmt (show off + n1 ≤ off + p.length by omega)
    obtain ⟨s', din', x, own', run, inside, after, count, inodes, same⟩ :=
      At.round sound live (by omega) grows.2.2 (by omega) (by omega)
    have file : off / BSIZE < fmt.MAXFILE := by
      have fits : fmt.NDIRECT + NINDIRECT ≤ fmt.MAXFILE := by cases fmt <;> decide
      have block : off / BSIZE < fmt.NDIRECT + NINDIRECT := by
        simp only [limit, BSIZE] at small ⊢
        omega
      omega
    obtain ⟨buf, isBuf⟩ : ∃ buf, (s'.sect x).splice (off - off / BSIZE * BSIZE) (p.take n1) = buf := ⟨_, rfl⟩
    have length : (p.drop n1).length = p.length - n1 := List.length_drop
    have whole : off + n1 + (p.drop n1).length = off + p.length := by omega
    have live' : (s'.wsect x buf).Live inum := ⟨live.1, by
      have counter : (s'.wsect x buf).freeinode = s.freeinode := inodes
      rw [counter]
      exact live.2⟩
    have blocks : (s'.wsect x buf).freeblock = s'.freeblock := rfl
    obtain ⟨s'', din'', own'', goes, done, count', inodes', sectors, same'⟩ :=
      ih (p.drop n1).length (by omega) (p.drop n1) (after buf).1 live' (by omega)
        (by rw [whole, blocks]; omega) rfl
    rw [whole] at goes done count'
    rw [blocks] at count'
    refine ⟨s'', din'', own'', ?_, done, by omega, inodes'.trans inodes, fun b low => ?_, same.trans same'⟩
    · rw [appendLoop, dif_pos more]
      dsimp only
      rw [if_pos file]
      simp only [bind, Except.bind, run, is]
      rw [rsect_ok inside]
      dsimp only
      rw [isBuf]
      exact goes
    · rw [sectors b low]
      exact (after buf).2 b low
  · have none : p.length = 0 := by omega
    rw [none, Nat.add_zero]
    refine ⟨s, din, own, ?_, sound, rfl, rfl, fun _ _ => rfl, .refl din⟩
    rw [appendLoop, dif_neg more]

/-- The addresses of inodes and the blocks behind the inodes are as before. -/
theorem Maps.frame {inode' : Nat → Dinode} (maps : Maps fmt inode s own)
    (same : ∀ j, s.Live j → (inode' j).addrs = (inode j).addrs) (freeblock : s'.freeblock = s.freeblock)
    (freeinode : s'.freeinode = s.freeinode) (sect : ∀ b, Format.bmapstart ≤ b → s'.sect b = s.sect b) :
    Maps fmt inode' s' own := by
  have lives : ∀ j, s'.Live j ↔ s.Live j := by
    intro j
    show 1 ≤ j ∧ j < s'.freeinode ↔ _
    rw [freeinode]
    exact Iff.rfl
  have start : ∀ b, fmt.nmeta ≤ b → Format.bmapstart ≤ b := fun b low => by
    unfold Format.nmeta at low
    unfold Format.bmapstart
    omega
  constructor
  · rw [freeblock]
    exact maps.bump
  · exact fun j place owned => (lives j).mpr (maps.live j place owned)
  · intro j live
    rw [same j ((lives j).mp live)]
    exact maps.direct j ((lives j).mp live)
  · intro j live
    rw [same j ((lives j).mp live)]
    exact maps.indirect j ((lives j).mp live)
  · intro j b owned i inside
    rw [sect b (start b (maps.bump.bounds _ _ owned).1)]
    exact maps.entries j b owned i inside
  · intro b above
    rw [freeblock] at above
    rw [sect b (start b (maps.bump.ordered.trans above))]
    exact maps.zero b above
  · intro b low high
    rw [sect b low]
    exact maps.bitmap b low high

/-- The inodes and the blocks behind them are as before. -/
theorem Sound.frame {inode' : Nat → Dinode} (sound : Sound fmt inode s own)
    (inodes : s.freeinode ≤ Format.NINODES) (same : ∀ j < Format.NINODES, inode' j = inode j)
    (freeblock : s'.freeblock = s.freeblock) (freeinode : s'.freeinode = s.freeinode)
    (sect : ∀ b, Format.bmapstart ≤ b → s'.sect b = s.sect b) : Sound fmt inode' s' own := by
  have lives : ∀ j, s'.Live j ↔ s.Live j := by
    intro j
    show 1 ≤ j ∧ j < s'.freeinode ↔ _
    rw [freeinode]
    exact Iff.rfl
  have below : ∀ j, s.Live j → inode' j = inode j := fun j live =>
    same j (lt_of_lt_of_le live.2 inodes)
  constructor
  · exact sound.maps.frame (fun j live => by rw [below j live]) freeblock freeinode sect
  · intro j place
    rw [sound.owned, lives]
    constructor
    · rintro ⟨live, needed⟩
      rw [below j live]
      exact ⟨live, needed⟩
    · rintro ⟨live, needed⟩
      rw [below j live] at needed
      exact ⟨live, needed⟩
  · intro j live
    rw [below j ((lives j).mp live)]
    exact sound.small j ((lives j).mp live)
  · intro j live
    rw [below j ((lives j).mp live)]
    exact sound.typed j ((lives j).mp live)
  · intro j above inodes
    rw [same j inodes]
    exact sound.free j (freeinode ▸ above) inodes

theorem IBLOCK_lt (inside : inum < Format.NINODES) : IBLOCK inum < Format.bmapstart := by
  have size : Format.NINODES = 200 ∧ IPB = 16 := ⟨rfl, rfl⟩
  unfold IBLOCK Format.bmapstart Format.inodestart Format.ninodeblocks
  rw [size.1] at inside ⊢
  rw [size.2]
  omega

/-- The image is as `mkfs` keeps it. -/
def Good (fmt : Format) (s : Image) : Prop := ∃ own, Sound fmt s.rinode s own

/-- A file has grown by `n` bytes. -/
structure Grown (fmt : Format) (s : Image) (inum n : Nat) (s' : Image) : Prop where
  good : Good fmt s'
  freeblock : s'.freeblock + need fmt (s.rinode inum).size =
    s.freeblock + need fmt ((s.rinode inum).size + n)
  freeinode : s'.freeinode = s.freeinode
  size : (s'.rinode inum).size = (s.rinode inum).size + n
  others : ∀ j < Format.NINODES, j ≠ inum → s'.rinode j = s.rinode j

/-- `iappend` puts bytes at the end of a file. -/
theorem iappend_spec (p : List UInt8) (good : Good fmt s)
    (live : s.Live inum) (inodes : s.freeinode ≤ Format.NINODES)
    (small : (s.rinode inum).size + p.length ≤ limit fmt)
    (room : s.freeblock + need fmt ((s.rinode inum).size + p.length) ≤
      fmt.FSSIZE + need fmt (s.rinode inum).size) :
    ∃ s', s.iappend fmt inum p = .ok s' ∧ Grown fmt s inum p.length s' := by
  obtain ⟨own, sound⟩ := good
  have start : At fmt s.rinode inum s (s.rinode inum) (s.rinode inum).size own := by
    show Sound fmt (Function.update s.rinode inum (s.rinode inum)) s own
    rwa [Function.update_eq_self]
  obtain ⟨s', din', own', run, done, count, counter, sectors, same⟩ :=
    appendLoop_spec p start live small room
  have bound := limit_lt fmt
  have stored : Stored { din' with size := (s.rinode inum).size + p.length } := by
    have kept := same.stored (stored_rinode s inum)
    exact ⟨show (s.rinode inum).size + p.length < 2 ^ 32 by omega, kept.addrs, kept.none⟩
  have inside : inum < Format.NINODES := lt_of_lt_of_le live.2 inodes
  have inode := rinode_winode stored s' inum
  have before : ∀ j < Format.NINODES, s'.rinode j = s.rinode j := by
    intro j low
    have block := IBLOCK_lt low
    have sector : s'.sect (IBLOCK j) = s.sect (IBLOCK j) := sectors _ (by
      unfold Format.nmeta
      unfold Format.bmapstart at block
      omega)
    unfold rinode
    rw [sector]
  obtain ⟨t, isT⟩ : ∃ t, s'.winode inum { din' with size := (s.rinode inum).size + p.length } = t :=
    ⟨_, rfl⟩
  rw [isT] at inode
  have blocks : t.freeblock = s'.freeblock ∧ t.freeinode = s'.freeinode := by
    rw [← isT]
    exact ⟨rfl, rfl⟩
  refine ⟨t, ?_, ⟨own', done.frame (counter ▸ inodes) (fun j low => ?_) blocks.1 blocks.2
    fun b above => ?_⟩, by rw [blocks.1]; exact count, blocks.2.trans counter, ?_, fun j low other => ?_⟩
  · unfold iappend
    simp only [bind, Except.bind, run, isT]
  · rw [inode]
    by_cases this : j = inum
    · subst this
      rw [Function.update_self, Function.update_self]
    · rw [Function.update_of_ne this, Function.update_of_ne this, before j low]
  · have block := IBLOCK_lt inside
    rw [← isT]
    exact Function.update_of_ne (by omega) ..
  · rw [inode, Function.update_self]
  · rw [inode, Function.update_of_ne other, before j low]

/-- `iappend` reads an entry of `indirect` that is not there, if the file is too large. -/
theorem slot_ok {din din' : Dinode} {fbn x : Nat} (run : s.slot fmt din fbn = .ok (s', din', x)) :
    fbn < fmt.NDIRECT + NINDIRECT := by
  unfold slot at run
  by_cases direct : fbn < fmt.NDIRECT
  · omega
  · rw [if_neg direct] at run
    dsimp only at run
    by_contra outside
    have none : ¬ fbn - fmt.NDIRECT < NINDIRECT := by omega
    simp only [none, if_false, bind, Except.bind] at run
    split at run
    · cases run
    · cases run

theorem appendLoop_ok (p : List UInt8) {din din' : Dinode} {off off' : Nat} (some : 0 < p.length)
    (run : s.appendLoop fmt din off p = .ok (s', din', off')) : off + p.length ≤ limit fmt := by
  induction left : p.length using Nat.strong_induction_on generalizing p s din off with
  | _ n ih =>
  subst left
  rw [appendLoop, dif_pos some] at run
  dsimp only at run
  split at run
  · obtain ⟨n1, is⟩ : ∃ n1, min p.length ((off / BSIZE + 1) * BSIZE - off) = n1 := ⟨_, rfl⟩
    rw [is] at run
    cases step : s.slot fmt din (off / BSIZE) with
    | error abort => simp [step, bind, Except.bind] at run
    | ok r =>
        obtain ⟨s₁, din₁, x⟩ := r
        have inside := slot_ok step
        simp only [step, bind, Except.bind] at run
        split at run
        · cases run
        · by_cases more : 0 < (p.drop n1).length
          · have length : (p.drop n1).length = p.length - n1 := List.length_drop
            have rest := ih (p.drop n1).length (by simp only [BSIZE] at is; omega) (p.drop n1) more run rfl
            simp only [BSIZE] at is
            omega
          · rw [List.length_drop] at more
            simp only [limit, BSIZE] at is inside ⊢
            omega
  · cases run

theorem iappend_ok {p : List UInt8} (some : 0 < p.length) (run : s.iappend fmt inum p = .ok s') :
    (s.rinode inum).size + p.length ≤ limit fmt := by
  unfold iappend at run
  cases loop : s.appendLoop fmt (s.rinode inum) (s.rinode inum).size p with
  | error abort => simp [loop, bind, Except.bind] at run
  | ok r => exact appendLoop_ok p some loop

theorem appendFile_more {content : List UInt8} (more : 0 < content.length) :
    s.appendFile fmt inum content =
      (s.iappend fmt inum (content.take BSIZE)).bind fun s => s.appendFile fmt inum (content.drop BSIZE) := by
  rw [appendFile, dif_pos more]
  rfl

theorem Grown.live {n : Nat} (grown : Grown fmt s inum n s') (live : s.Live inum) : s'.Live inum :=
  ⟨live.1, by rw [grown.freeinode]; exact live.2⟩

/-- One growth after another. -/
theorem Grown.trans {n m : Nat} {s'' : Image} (first : Grown fmt s inum n s')
    (second : Grown fmt s' inum m s'') : Grown fmt s inum (n + m) s'' where
  good := second.good
  freeblock := by
    have before := first.freeblock
    have after := second.freeblock
    rw [first.size] at after
    rw [← Nat.add_assoc]
    omega
  freeinode := second.freeinode.trans first.freeinode
  size := by rw [second.size, first.size, Nat.add_assoc]
  others j low other := (second.others j low other).trans (first.others j low other)

/-- A file that is not too large is put into the image as it is. -/
theorem appendFile_spec (content : List UInt8) (good : Good fmt s) (live : s.Live inum)
    (inodes : s.freeinode ≤ Format.NINODES) (small : (s.rinode inum).size + content.length ≤ limit fmt)
    (room : s.freeblock + need fmt ((s.rinode inum).size + content.length) ≤
      fmt.FSSIZE + need fmt (s.rinode inum).size) :
    ∃ s', s.appendFile fmt inum content = .ok s' ∧ Grown fmt s inum content.length s' := by
  induction left : content.length using Nat.strong_induction_on generalizing content s with
  | _ n ih =>
  subst left
  by_cases more : 0 < content.length
  · have parts : (content.take BSIZE).length + (content.drop BSIZE).length = content.length := by
      rw [← List.length_append, List.take_append_drop]
    have shorter : (content.drop BSIZE).length < content.length := by
      simp only [List.length_drop, BSIZE]
      omega
    have bound := need_mono fmt (show (s.rinode inum).size + (content.take BSIZE).length ≤
      (s.rinode inum).size + content.length by omega)
    obtain ⟨s₁, run, grown⟩ := iappend_spec (content.take BSIZE) good live inodes (by omega) (by omega)
    have size := grown.size
    have count := grown.freeblock
    have whole : (s₁.rinode inum).size + (content.drop BSIZE).length =
        (s.rinode inum).size + content.length := by omega
    obtain ⟨s₂, goes, grown'⟩ := ih (content.drop BSIZE).length shorter (content.drop BSIZE) grown.good
      (grown.live live) (by rw [grown.freeinode]; exact inodes) (by omega)
      (by rw [whole, size]; omega) rfl
    refine ⟨s₂, ?_, ?_⟩
    · rw [appendFile_more more, run]
      exact goes
    · rw [← parts]
      exact grown.trans grown'
  · have none : content.length = 0 := by omega
    rw [appendFile, dif_neg more, none]
    exact ⟨s, rfl, good, rfl, rfl, rfl, fun _ _ _ => rfl⟩

/-- A file that is too large makes the program leave its array. -/
theorem appendFile_large (content : List UInt8) (good : Good fmt s) (live : s.Live inum)
    (inodes : s.freeinode ≤ Format.NINODES) (large : limit fmt < (s.rinode inum).size + content.length)
    (small : (s.rinode inum).size ≤ limit fmt)
    (room : s.freeblock + need fmt (limit fmt) ≤ fmt.FSSIZE + need fmt (s.rinode inum).size) :
    s.appendFile fmt inum content ≠ .ok s' := by
  intro done
  induction left : content.length using Nat.strong_induction_on generalizing content s with
  | _ n ih =>
  subst left
  have more : 0 < content.length := by omega
  rw [appendFile_more more] at done
  cases run : s.iappend fmt inum (content.take BSIZE) with
  | error abort => simp [run, Except.bind] at done
  | ok s₁ =>
      have some : 0 < (content.take BSIZE).length := by
        simp only [List.length_take, BSIZE]
        omega
      have fits := iappend_ok some run
      have bound := need_mono fmt fits
      obtain ⟨s₂, run', grown⟩ := iappend_spec (content.take BSIZE) good live inodes fits (by omega)
      rw [run] at run' done
      cases run'
      have parts : (content.take BSIZE).length + (content.drop BSIZE).length = content.length := by
        rw [← List.length_append, List.take_append_drop]
      have size := grown.size
      have count := grown.freeblock
      exact ih (content.drop BSIZE).length (by omega) (content.drop BSIZE) grown.good (grown.live live)
        (by rw [grown.freeinode]; exact inodes) (by omega) (by omega) (by rw [size]; omega) done rfl

/-- `ialloc` takes the next inode, which is empty. -/
theorem ialloc_spec (type : BitVec 16) (good : Good fmt s) (low : 1 ≤ s.freeinode)
    (inodes : s.freeinode < Format.NINODES) (typed : type ≠ 0) :
    ∃ s', s.ialloc type = (s.freeinode, s') ∧ Good fmt s' ∧ s'.freeinode = s.freeinode + 1 ∧
      s'.freeblock = s.freeblock ∧ (s'.rinode s.freeinode).size = 0 ∧
      ∀ j, j ≠ s.freeinode → s'.rinode j = s.rinode j := by
  obtain ⟨own, sound⟩ := good
  have stored : Stored ⟨type, 0, 0, 1, 0, fun _ => 0⟩ :=
    ⟨show (0 : Nat) < 2 ^ 32 by decide, fun _ => show (0 : Nat) < 2 ^ 32 by decide, fun _ _ => rfl⟩
  obtain ⟨t, isT⟩ : ∃ t, ({ s with freeinode := s.freeinode + 1 } : Image).winode s.freeinode
    ⟨type, 0, 0, 1, 0, fun _ => 0⟩ = t := ⟨_, rfl⟩
  have inode : t.rinode = Function.update s.rinode s.freeinode ⟨type, 0, 0, 1, 0, fun _ => 0⟩ := by
    rw [← isT]
    exact rinode_winode stored _ _
  have counters : t.freeinode = s.freeinode + 1 ∧ t.freeblock = s.freeblock := by
    rw [← isT]
    exact ⟨rfl, rfl⟩
  have sect : ∀ b, Format.bmapstart ≤ b → t.sect b = s.sect b := by
    intro b above
    have block := IBLOCK_lt inodes
    rw [← isT]
    exact Function.update_of_ne (by omega) ..
  have absent : ∀ place, own (s.freeinode, place) = none := by
    intro place
    by_contra some
    exact absurd ((sound.owned _ _).mp some).1.2 (lt_irrefl _)
  have lives : ∀ j, t.Live j ↔ s.Live j ∨ j = s.freeinode := by
    intro j
    show 1 ≤ j ∧ j < t.freeinode ↔ (1 ≤ j ∧ j < s.freeinode) ∨ _
    rw [counters.1]
    omega
  have start : ∀ b, fmt.nmeta ≤ b → Format.bmapstart ≤ b := fun b low => by
    unfold Format.nmeta at low
    unfold Format.bmapstart
    omega
  have maps := sound.maps
  have other : ∀ j, s.Live j → t.rinode j = s.rinode j := fun j live => by
    rw [inode, Function.update_of_ne (Nat.ne_of_lt live.2)]
  have here : t.rinode s.freeinode = ⟨type, 0, 0, 1, 0, fun _ => 0⟩ := by rw [inode, Function.update_self]
  refine ⟨t, by rw [← isT]; rfl, ⟨own, ⟨?_, ?_, ?_, ?_, ?_, ?_, ?_⟩, ?_, ?_, ?_, ?_⟩, counters.1, counters.2,
    by rw [here], fun j apart => by rw [inode, Function.update_of_ne apart]⟩
  · rw [counters.2]
    exact maps.bump
  · exact fun j place owned => (lives j).mpr (.inl (maps.live j place owned))
  · intro j live bn below
    rcases (lives j).mp live with live | rfl
    · rw [other j live]
      exact maps.direct j live bn below
    · rw [here, absent]
      rfl
  · intro j live
    rcases (lives j).mp live with live | rfl
    · rw [other j live]
      exact maps.indirect j live
    · rw [here, absent]
      rfl
  · intro j b owned i inside
    rw [sect b (start b (maps.bump.bounds _ _ owned).1)]
    exact maps.entries j b owned i inside
  · intro b above
    rw [counters.2] at above
    rw [sect b (start b (maps.bump.ordered.trans above))]
    exact maps.zero b above
  · intro b low high
    rw [sect b low]
    exact maps.bitmap b low high
  · intro j place
    rw [lives]
    by_cases this : j = s.freeinode
    · subst this
      rw [here, absent]
      refine iff_of_false (absurd rfl) ?_
      rintro ⟨-, needed⟩
      cases place <;> exact absurd needed (Nat.not_lt_zero _)
    · rw [inode, Function.update_of_ne this, sound.owned]
      simp [this]
  · intro j live
    rcases (lives j).mp live with live | rfl
    · rw [other j live]
      exact sound.small j live
    · rw [here]
      exact Nat.zero_le _
  · intro j live
    rcases (lives j).mp live with live | rfl
    · rw [other j live]
      exact sound.typed j live
    · rw [here]
      exact typed
  · intro j above inside
    rw [counters.1] at above
    rw [inode, Function.update_of_ne (by omega)]
    exact sound.free j (by omega) inside

/-- What `mkfs` has done when there are `entries` entries in the root directory, each with an inode of its
own but the first two. -/
structure Progress (fmt : Format) (s : Image) (entries : Nat) : Prop where
  good : Good fmt s
  low : 2 ≤ entries
  high : entries ≤ Format.NINODES
  freeinode : s.freeinode = entries
  root : (s.rinode 1).size = DIRENT * entries

variable {file : InputFile} {files : List InputFile} {entries : Nat}

theorem Progress.live (progress : Progress fmt s entries) : s.Live 1 :=
  ⟨le_refl 1, by
    have low := progress.low
    rw [progress.freeinode]
    omega⟩

theorem root_le_limit (fmt : Format) {entries : Nat} (high : entries ≤ Format.NINODES) :
    DIRENT * entries ≤ limit fmt := by
  have most : DIRENT * Format.NINODES ≤ limit fmt := by cases fmt <;> decide
  exact (Nat.mul_le_mul_left _ high).trans most

theorem need_zero (fmt : Format) : need fmt 0 = 0 := by cases fmt <;> decide

/-- The inode of a file and its entry in the root directory, before its content. -/
theorem addFile_entry (progress : Progress fmt s entries) (more : entries < Format.NINODES)
    (name : 47 ∉ shortname fmt file.path)
    (room : s.freeblock + need fmt (DIRENT * (entries + 1)) ≤ fmt.FSSIZE + need fmt (DIRENT * entries)) :
    ∃ s', s.addFile fmt file = s'.appendFile fmt entries file.content ∧
      Progress fmt s' (entries + 1) ∧ (s'.rinode entries).size = 0 ∧
      s'.freeblock + need fmt (DIRENT * entries) = s.freeblock + need fmt (DIRENT * (entries + 1)) := by
  have low := progress.low
  have counter := progress.freeinode
  obtain ⟨s₁, allocated, good, next, blocks, empty, kept⟩ :=
    ialloc_spec 2 progress.good (by omega) (by omega) (by decide)
  rw [counter] at allocated next empty kept
  have root : (s₁.rinode 1).size = DIRENT * entries := by
    rw [kept 1 (by omega)]
    exact progress.root
  have live : s₁.Live 1 := ⟨le_refl 1, by omega⟩
  obtain ⟨name', isName⟩ : ∃ name', (if (shortname fmt file.path).head? = some 95
    then (shortname fmt file.path).tail else shortname fmt file.path) = name' := ⟨_, rfl⟩
  have length : (Dirent.bytes entries (.ofList name')).length = DIRENT := Dirent.length_bytes _ _
  have size : (s₁.rinode 1).size + (Dirent.bytes entries (.ofList name')).length =
      DIRENT * (entries + 1) := by
    rw [root, length, Nat.mul_succ]
  obtain ⟨s₂, run, grown⟩ := iappend_spec (Dirent.bytes entries (.ofList name')) good live (by omega)
    (by rw [size]; exact root_le_limit fmt more) (by rw [size, root, blocks]; exact room)
  have count := grown.freeblock
  rw [size, root, blocks] at count
  refine ⟨s₂, ?_, ⟨grown.good, by omega, more, grown.freeinode.trans next, ?_⟩, ?_, count⟩
  · unfold addFile
    dsimp only
    rw [if_neg name, isName, allocated]
    simp only [bind, Except.bind, run]
  · rw [grown.size, size]
  · rw [grown.others entries more (by omega)]
    exact empty

/-- A file that is not too large is put into the image. -/
theorem addFile_spec (progress : Progress fmt s entries) (more : entries < Format.NINODES)
    (name : 47 ∉ shortname fmt file.path) (small : file.content.length ≤ limit fmt)
    (room : s.freeblock + need fmt (DIRENT * (entries + 1)) + need fmt file.content.length ≤
      fmt.FSSIZE + need fmt (DIRENT * entries)) :
    ∃ s', s.addFile fmt file = .ok s' ∧ Progress fmt s' (entries + 1) ∧
      s'.freeblock + need fmt (DIRENT * entries) =
        s.freeblock + need fmt (DIRENT * (entries + 1)) + need fmt file.content.length := by
  obtain ⟨s₁, step, progress', empty, count⟩ := addFile_entry progress more name (by omega)
  have low := progress.low
  have counter := progress'.freeinode
  have zero := need_zero fmt
  obtain ⟨s₂, run, grown⟩ := appendFile_spec file.content progress'.good
    (show s₁.Live entries from ⟨by omega, by omega⟩) (by omega) (by omega) (by rw [empty, zero, Nat.zero_add]; omega)
  have count' := grown.freeblock
  rw [empty, zero, Nat.zero_add] at count'
  refine ⟨s₂, step.trans run, ⟨grown.good, by omega, more, grown.freeinode.trans counter, ?_⟩, by omega⟩
  have root : 1 < Format.NINODES := by decide
  rw [grown.others 1 root (by omega)]
  exact progress'.root

/-- A file that is too large is not. -/
theorem addFile_large (progress : Progress fmt s entries) (more : entries < Format.NINODES)
    (name : 47 ∉ shortname fmt file.path) (large : limit fmt < file.content.length)
    (room : s.freeblock + need fmt (DIRENT * (entries + 1)) + need fmt (limit fmt) ≤
      fmt.FSSIZE + need fmt (DIRENT * entries)) : s.addFile fmt file ≠ .ok s' := by
  obtain ⟨s₁, step, progress', empty, count⟩ := addFile_entry progress more name (by omega)
  have low := progress.low
  have counter := progress'.freeinode
  have zero := need_zero fmt
  rw [step]
  exact appendFile_large file.content progress'.good (show s₁.Live entries from ⟨by omega, by omega⟩)
    (by omega) (by omega) (by omega) (by rw [empty, zero]; omega)

end Image

namespace Format

/-- How many blocks a file needs, with the blocks behind its double-indirect block. -/
def demand (fmt : Format) (size : Nat) : Nat :=
  Image.need fmt size +
    if Image.limit fmt < size then
      1 + (size - Image.limit fmt + (NINDIRECT * BSIZE - 1)) / (NINDIRECT * BSIZE)
    else 0

end Format

/-- The files fit into an image: the program opens them all, no name has a slash in it, there are inodes
and blocks for all of them, and one block holds the bitmap. -/
structure Fits (fmt : Format) (files : List InputFile) : Prop where
  names : ∀ file ∈ files, 47 ∉ shortname fmt file.path
  sizes : ∀ file ∈ files, file.content.length ≤ fmt.MAXFILE * BSIZE
  inodes : files.length + 2 ≤ Format.NINODES
  blocks : fmt.nmeta + Image.need fmt (DIRENT * (files.length + 2)) +
    (files.map fun file => fmt.demand file.content.length).sum ≤ fmt.FSSIZE
  bitmap : fmt.nmeta + Image.need fmt (DIRENT * (files.length + 2)) +
    (files.map fun file => fmt.demand file.content.length).sum < BSIZE * 8

namespace Image

variable {fmt : Format} {s s' : Image} {file : InputFile} {files : List InputFile} {entries inum : Nat}

theorem need_le_demand (fmt : Format) (size : Nat) : need fmt size ≤ fmt.demand size :=
  Nat.le_add_right _ _

theorem demand_small {size : Nat} (small : size ≤ limit fmt) : fmt.demand size = need fmt size := by
  unfold Format.demand
  rw [if_neg (by omega), Nat.add_zero]

/-- Files that are not too large are put into the image one after another. -/
theorem addFiles_spec (files : List InputFile) (progress : Progress fmt s entries)
    (inodes : entries + files.length ≤ Format.NINODES)
    (names : ∀ file ∈ files, 47 ∉ shortname fmt file.path)
    (small : ∀ file ∈ files, file.content.length ≤ limit fmt)
    (room : s.freeblock + need fmt (DIRENT * (entries + files.length)) +
      (files.map fun file => fmt.demand file.content.length).sum ≤
        fmt.FSSIZE + need fmt (DIRENT * entries)) :
    ∃ s', files.foldlM (addFile fmt) s = .ok s' ∧ Progress fmt s' (entries + files.length) ∧
      s'.freeblock + need fmt (DIRENT * entries) =
        s.freeblock + need fmt (DIRENT * (entries + files.length)) +
          (files.map fun file => fmt.demand file.content.length).sum := by
  induction files generalizing s entries with
  | nil => exact ⟨s, rfl, progress, by simp⟩
  | cons file rest ih =>
      rw [List.map_cons, List.sum_cons] at room ⊢
      have counts : entries + (file :: rest).length = entries + 1 + rest.length := by
        rw [List.length_cons]
        omega
      rw [counts] at inodes room ⊢
      have first : file.content.length ≤ limit fmt := small file (.head rest)
      rw [demand_small first] at room ⊢
      have grows := need_mono fmt (Nat.mul_le_mul_left DIRENT (Nat.le_add_right (entries + 1) rest.length))
      obtain ⟨s₁, run, progress', count⟩ := addFile_spec progress (by omega) (names file (.head rest)) first
        (by omega)
      obtain ⟨s₂, goes, done, count'⟩ := ih progress' inodes
        (fun other inside => names other (.tail _ inside))
        (fun other inside => small other (.tail _ inside)) (by omega)
      refine ⟨s₂, ?_, done, by omega⟩
      rw [List.foldlM_cons, run]
      exact goes

/-- If one of them is too large, the program does not get to its end. -/
theorem addFiles_large (files : List InputFile) (progress : Progress fmt s entries)
    (inodes : entries + files.length ≤ Format.NINODES)
    (names : ∀ file ∈ files, 47 ∉ shortname fmt file.path)
    (large : ∃ file ∈ files, limit fmt < file.content.length)
    (room : s.freeblock + need fmt (DIRENT * (entries + files.length)) +
      (files.map fun file => fmt.demand file.content.length).sum ≤
        fmt.FSSIZE + need fmt (DIRENT * entries)) :
    files.foldlM (addFile fmt) s ≠ .ok s' := by
  induction files generalizing s entries with
  | nil => simp at large
  | cons file rest ih =>
      rw [List.map_cons, List.sum_cons] at room
      have counts : entries + (file :: rest).length = entries + 1 + rest.length := by
        rw [List.length_cons]
        omega
      rw [counts] at inodes room
      have grows := need_mono fmt (Nat.mul_le_mul_left DIRENT (Nat.le_add_right (entries + 1) rest.length))
      have fits := need_le_demand fmt file.content.length
      rw [List.foldlM_cons]
      by_cases first : file.content.length ≤ limit fmt
      · obtain ⟨s₁, run, progress', count⟩ := addFile_spec progress (by omega) (names file (.head rest)) first
          (by omega)
        rw [run]
        refine ih progress' inodes (fun other inside => names other (.tail _ inside)) ?_ (by omega)
        obtain ⟨other, inside, size⟩ := large
        rcases List.mem_cons.mp inside with rfl | inside
        · omega
        · exact ⟨other, inside, size⟩
      · have most := need_mono fmt (Nat.le_of_lt (Nat.lt_of_not_le first))
        cases run : s.addFile fmt file with
        | error abort => exact nofun
        | ok s₁ =>
            refine absurd run (addFile_large progress (by omega) (names file (.head rest)) (by omega) ?_)
            omega

theorem start_sect (fmt : Format) {b : Nat} (other : b ≠ 1) : (start fmt).sect b = fun _ => 0 := by
  show Function.update (fun _ _ => 0) 1 _ b = _
  rw [Function.update_of_ne other]

theorem rinode_zero (zero : s.sect (IBLOCK inum) = fun _ => 0) :
    s.rinode inum = ⟨0, 0, 0, 0, 0, fun _ => 0⟩ := by
  have word : ∀ i, Bytes.word (fun _ => 0 : Block) i = 0 := fun i => by simp [Bytes.word, Bytes.byte]
  unfold rinode Dinode.ofWords
  rw [zero]
  simp only [word, ite_self]
  rfl

theorem start_rinode (fmt : Format) (inum : Nat) : (start fmt).rinode inum = ⟨0, 0, 0, 0, 0, fun _ => 0⟩ := by
  have block : IBLOCK inum ≠ 1 := by
    show inum / IPB + (2 + Format.nlog) ≠ 1
    generalize inum / IPB = group, Format.nlog = log
    omega
  exact rinode_zero (start_sect fmt block)

theorem start_good (fmt : Format) : Good fmt (start fmt) := by
  have none : ∀ inum, ¬ (start fmt).Live inum := fun inum live => by
    have high : inum < 1 := live.2
    have low := live.1
    omega
  have zero : ∀ b, Format.bmapstart ≤ b → (start fmt).sect b = fun _ => 0 := fun b above => by
    have first : 1 < Format.bmapstart := by decide
    exact start_sect fmt (by omega)
  have start : ∀ b, fmt.nmeta ≤ b → Format.bmapstart ≤ b := fun b low => by
    unfold Format.nmeta at low
    unfold Format.bmapstart
    omega
  refine ⟨fun _ => Option.none, ⟨?_, ?_, ?_, ?_, ?_, ?_, ?_⟩, ?_, ?_, ?_, ?_⟩
  · exact Bump.start _ _
  · exact fun _ _ owned => absurd rfl owned
  · exact fun inum live => absurd live (none inum)
  · exact fun inum live => absurd live (none inum)
  · exact fun _ _ => nofun
  · exact fun b above => zero b (start b above)
  · exact fun b low _ => zero b low
  · exact fun inum place => iff_of_false (absurd rfl) fun both => none inum both.1
  · exact fun inum live => absurd live (none inum)
  · exact fun inum live => absurd live (none inum)
  · exact fun inum _ _ => by rw [start_rinode]

/-- The start of `mkfs`: the root directory with its first two entries. -/
def rooted (fmt : Format) : Except Abort Image := do
  let (rootino, s) := (start fmt).ialloc 1
  if rootino ≠ 1 then .error .assertion
  else
    let s ← s.iappend fmt rootino (Dirent.bytes rootino (.ofList [46]))
    s.iappend fmt rootino (Dirent.bytes rootino (.ofList [46, 46]))

theorem rooted_spec (fmt : Format) : ∃ s, rooted fmt = .ok s ∧ Progress fmt s 2 ∧
    s.freeblock = fmt.nmeta + need fmt (DIRENT * 2) := by
  have inodes : Format.NINODES = 200 := rfl
  have dirent : DIRENT = 16 := rfl
  have zero := need_zero fmt
  have room : fmt.nmeta + need fmt 32 ≤ fmt.FSSIZE := by cases fmt <;> decide
  have small : 32 ≤ limit fmt := by cases fmt <;> decide
  have grows := need_mono fmt (show 16 ≤ 32 by decide)
  have two : 16 + 16 = 32 := rfl
  obtain ⟨s₁, allocated, good, next, blocks, empty, -⟩ := ialloc_spec 1 (start_good fmt)
    (show 1 ≤ 1 by decide) (show 1 < Format.NINODES by decide) (by decide)
  have free : s₁.freeblock = fmt.nmeta := blocks
  have counter : s₁.freeinode = 2 := next
  have empty : (s₁.rinode 1).size = 0 := empty
  have length : ∀ name, (Dirent.bytes 1 (.ofList name)).length = 16 := fun name =>
    (Dirent.length_bytes 1 _).trans dirent
  obtain ⟨s₂, run, grown⟩ := iappend_spec (Dirent.bytes 1 (.ofList [46])) good
    (show s₁.Live 1 from ⟨le_refl 1, by omega⟩) (by omega) (by rw [length, empty]; omega)
    (by rw [length, empty, Nat.zero_add]; omega)
  have count := grown.freeblock
  have size := grown.size
  have counter' := grown.freeinode
  rw [length, empty, Nat.zero_add] at count size
  obtain ⟨s₃, run', grown'⟩ := iappend_spec (Dirent.bytes 1 (.ofList [46, 46])) grown.good
    (show s₂.Live 1 from ⟨le_refl 1, by omega⟩) (by omega) (by rw [length, size]; omega)
    (by rw [length, size, two]; omega)
  have count' := grown'.freeblock
  have size' := grown'.size
  have counter'' := grown'.freeinode
  rw [length, size, two] at count' size'
  refine ⟨s₃, ?_, ⟨grown'.good, le_refl 2, by omega, by omega, by rw [size', dirent]⟩, ?_⟩
  · unfold rooted
    rw [allocated]
    simp only [bind, Except.bind, ne_eq]
    have one : (start fmt).freeinode = 1 := rfl
    rw [one, if_neg (not_not.mpr rfl), run]
    exact run'
  · have twice : DIRENT * 2 = 32 := rfl
    rw [twice]
    omega

theorem mkfs_eq (fmt : Format) (files : List InputFile) : mkfs fmt files =
    (rooted fmt).bind fun s =>
      (files.foldlM (addFile fmt) s).bind fun s => s.fixRoot.balloc s.fixRoot.freeblock := by
  have one : ((start fmt).ialloc 1).1 = 1 := rfl
  unfold mkfs rooted
  simp only [bind, one, ne_eq, not_true_eq_false, if_false]
  cases ((start fmt).ialloc 1).2.iappend fmt 1 (Dirent.bytes 1 (.ofList [46])) with
  | error abort => rfl
  | ok s => rfl

/-- The root directory with its first two entries. -/
theorem mkfs_start (fmt : Format) : ∃ s, Progress fmt s 2 ∧
    s.freeblock = fmt.nmeta + need fmt (DIRENT * 2) ∧
    ∀ files, mkfs fmt files =
      (files.foldlM (addFile fmt) s).bind fun s => s.fixRoot.balloc s.fixRoot.freeblock := by
  obtain ⟨s, run, progress, blocks⟩ := rooted_spec fmt
  refine ⟨s, progress, blocks, fun files => ?_⟩
  rw [mkfs_eq, run]
  rfl

/-- The kernel finds the blocks that are given to a file. -/
theorem Sound.blockOf_eq {inode : Nat → Dinode} {own : Nat × Place → Option Nat}
    (sound : Sound fmt inode s own) (data : ∀ b, fmt.nmeta ≤ b → s'.sect b = s.sect b) {ip : Dinode}
    {inum b : Nat} {place : Place} (addrs : ip.addrs = (inode inum).addrs)
    (owned : own (inum, place) = some b) : s'.blockOf fmt ip place = b := by
  have some : own (inum, place) ≠ none := by simp [owned]
  obtain ⟨live, needed⟩ := (sound.owned _ _).mp some
  have small := sound.small inum live
  have low : ∀ place b, own (inum, place) = Option.some b → 0 < b := fun place b owned =>
    lt_of_lt_of_le fmt.nmeta_pos (sound.maps.bump.bounds _ _ owned).1
  have single : ∀ n, (fmt.NDIRECT + NINDIRECT + n) * BSIZE < (inode inum).size → False := by
    intro n large
    unfold limit at small
    have := Nat.mul_le_mul_right BSIZE (Nat.le_add_right (fmt.NDIRECT + NINDIRECT) n)
    omega
  cases place with
  | data bn =>
      by_cases direct : bn < fmt.NDIRECT
      · unfold blockOf
        dsimp only
        rw [if_pos direct, addrs, sound.maps.direct inum live bn direct, owned]
        rfl
      · have inside : bn - fmt.NDIRECT < NINDIRECT := by
          by_contra outside
          refine single (bn - fmt.NDIRECT - NINDIRECT) ?_
          rw [show fmt.NDIRECT + NINDIRECT + (bn - fmt.NDIRECT - NINDIRECT) = bn by omega]
          exact needed
        have index : fmt.NDIRECT + (bn - fmt.NDIRECT) = bn := by omega
        have table : own (inum, .indirect) ≠ none := by
          refine (sound.owned _ _).mpr ⟨live, ?_⟩
          exact lt_of_le_of_lt (Nat.mul_le_mul_right _ (Nat.le_of_not_lt direct)) needed
        obtain ⟨c, isC⟩ := Option.ne_none_iff_exists'.mp table
        have entry := sound.maps.entries inum c isC _ inside
        have address := sound.maps.indirect inum live
        rw [index, owned] at entry
        rw [isC] at address
        have positive := low _ _ isC
        unfold blockOf
        dsimp only
        rw [if_neg direct, if_pos inside, addrs, address]
        unfold Image.entry
        rw [Option.getD_some, if_neg (by omega), data c (sound.maps.bump.bounds _ _ isC).1, entry]
        rfl
  | indirect =>
      unfold blockOf
      dsimp only
      rw [addrs, sound.maps.indirect inum live, owned]
      rfl
  | double => exact absurd needed fun large => single 0 large
  | doubleEntry i => exact absurd needed fun large => single (i * NINDIRECT) large

theorem bitmap_succ (used : Nat) : bitmap (used + 1) = (bitmap used).setBit used true := by
  unfold bitmap
  rw [List.range_succ, List.foldl_append, List.foldl_cons, List.foldl_nil]

theorem bit_bitmap (used : Nat) (small : used ≤ BPB) (j : Nat) :
    (bitmap used).bit j = true ↔ j < used := by
  have bits : BPB = 8192 := rfl
  rw [bits] at small
  induction used with
  | zero => simp [bitmap, Bytes.bit, Bytes.byte]
  | succ used ih =>
      have before := ih (by omega)
      rw [bitmap_succ, Bytes.bit_setBit _ _ (by simp only [BSIZE]; omega)]
      by_cases last : j = used
      · rw [if_pos last]
        exact iff_of_true rfl (by omega)
      · rw [if_neg last]
        exact before.trans (by omega)

/-- The image at the end of a run. -/
structure Finished (fmt : Format) (s : Image) (entries : Nat) (s' : Image) : Prop where
  freeblock : s'.freeblock = s.freeblock
  freeinode : s'.freeinode = s.freeinode
  inodes : ∀ inum < Format.NINODES, s'.rinode inum = Function.update s.rinode 1
    { s.rinode 1 with size := (DIRENT * entries / BSIZE + 1) * BSIZE } inum
  data : ∀ b, fmt.nmeta ≤ b → s'.sect b = s.sect b
  used : ∀ b < fmt.FSSIZE, s'.isUsed b = true ↔ b < s.freeblock

theorem finish_spec (progress : Progress fmt s entries) (small : s.freeblock < BSIZE * 8) :
    ∃ s', s.fixRoot.balloc s.fixRoot.freeblock = .ok s' ∧ Finished fmt s entries s' := by
  obtain ⟨own, sound⟩ := progress.good
  have root := progress.root
  have stored := stored_rinode s 1
  have most := (Nat.mul_le_mul_left DIRENT progress.high)
  have dirents : DIRENT * Format.NINODES = 3200 := rfl
  have size : (DIRENT * entries / BSIZE + 1) * BSIZE < 2 ^ 32 := by
    simp only [BSIZE]
    omega
  have stored' : Stored { s.rinode 1 with size := (DIRENT * entries / BSIZE + 1) * BSIZE } :=
    ⟨size, stored.addrs, stored.none⟩
  have fixed := rinode_winode stored' s 1
  have isFixed : s.fixRoot =
      s.winode 1 { s.rinode 1 with size := (DIRENT * entries / BSIZE + 1) * BSIZE } := by
    unfold fixRoot
    dsimp only
    rw [root]
  rw [← isFixed] at fixed
  have counters : s.fixRoot.freeblock = s.freeblock ∧ s.fixRoot.freeinode = s.freeinode := ⟨rfl, rfl⟩
  have first : IBLOCK 1 < Format.bmapstart := IBLOCK_lt (by decide)
  have sectors : ∀ b, Format.bmapstart ≤ b → s.fixRoot.sect b = s.sect b := by
    intro b above
    rw [isFixed]
    unfold winode wsect
    dsimp only
    rw [Function.update_of_ne (by omega)]
  obtain ⟨t, isT⟩ : ∃ t, s.fixRoot.wsect Format.bmapstart (bitmap s.freeblock) = t := ⟨_, rfl⟩
  have run : s.fixRoot.balloc s.freeblock = .ok t := by
    unfold balloc
    rw [if_pos small, isT]
  have other : ∀ b, b ≠ Format.bmapstart → t.sect b = s.fixRoot.sect b := by
    intro b apart
    rw [← isT]
    unfold wsect
    dsimp only
    rw [Function.update_of_ne apart]
  have counted : t.freeblock = s.freeblock ∧ t.freeinode = s.freeinode := by
    rw [← isT]
    exact counters
  have nmeta : ∀ b, fmt.nmeta ≤ b → Format.bmapstart < b := fun b above => by
    have blocks : fmt.nmeta = Format.bmapstart + (fmt.FSSIZE / (BSIZE * 8) + 1) := rfl
    generalize fmt.FSSIZE / (BSIZE * 8) = more at blocks
    omega
  refine ⟨t, by rw [counters.1]; exact run, counted.1, counted.2, fun inum inside => ?_,
    fun b above => ?_, fun b inside => ?_⟩
  · have block := IBLOCK_lt inside
    rw [← fixed]
    unfold rinode
    rw [other _ (by omega)]
  · have last := nmeta b above
    rw [other b (by omega), sectors b (by omega)]
  · have bits : BPB = BSIZE * 8 := rfl
    unfold isUsed
    by_cases here : b / BPB = 0
    · have zero : b % BPB = b := Nat.mod_eq_of_lt (by
        rw [bits] at here ⊢
        simp only [BSIZE] at here ⊢
        omega)
      have sector : t.sect Format.bmapstart = bitmap s.freeblock := by
        rw [← isT]
        unfold wsect
        dsimp only
        rw [Function.update_self]
      rw [here, Nat.add_zero, zero, sector]
      exact bit_bitmap _ (by omega) _
    · have positive : 0 < b / BPB := Nat.pos_of_ne_zero here
      have above : s.freeblock ≤ b := by
        have whole := Nat.div_mul_le_self b BPB
        have least := Nat.mul_le_mul_right BPB positive
        omega
      have last : b / BPB ≤ fmt.FSSIZE / (BSIZE * 8) := Nat.div_le_div_right (Nat.le_of_lt inside)
      have blocks : fmt.nmeta = Format.bmapstart + (fmt.FSSIZE / (BSIZE * 8) + 1) := rfl
      rw [other _ (by omega), sectors _ (by omega), sound.maps.bitmap _ (by omega) (by omega)]
      refine iff_of_false ?_ (by omega)
      simp [Bytes.bit, Bytes.byte]

theorem Finished.root (finished : Finished fmt s entries s') :
    s'.rinode 1 = { s.rinode 1 with size := (DIRENT * entries / BSIZE + 1) * BSIZE } := by
  rw [finished.inodes 1 (by decide), Function.update_self]

theorem Finished.other (finished : Finished fmt s entries s') {inum : Nat} (inside : inum < Format.NINODES)
    (apart : inum ≠ 1) : s'.rinode inum = s.rinode inum := by
  rw [finished.inodes inum inside, Function.update_of_ne apart]

/-- When the root directory ends in a block, rounding its size asks for no more blocks. -/
theorem needed_round (fmt : Format) {entries : Nat} (high : entries ≤ Format.NINODES)
    (inner : entries % 64 ≠ 0) (place : Place) :
    place.Needed fmt ((DIRENT * entries / BSIZE + 1) * BSIZE) ↔ place.Needed fmt (DIRENT * entries) := by
  have most : Format.NINODES = 200 := rfl
  have dirent : DIRENT = 16 := rfl
  have direct : 11 ≤ fmt.NDIRECT := by cases fmt <;> decide
  rw [most] at high
  rw [dirent]
  cases place with
  | data bn =>
      simp only [Place.Needed, BSIZE]
      omega
  | indirect =>
      simp only [Place.Needed, BSIZE]
      omega
  | double =>
      simp only [Place.Needed, BSIZE]
      omega
  | doubleEntry i =>
      simp only [Place.Needed, BSIZE]
      have := Nat.zero_le (i * NINDIRECT)
      omega

/-- The finished image is consistent unless the entries of the root directory fill its blocks. -/
theorem Finished.consistent_iff (progress : Progress fmt s entries) (finished : Finished fmt s entries s')
    (room : s.freeblock ≤ fmt.FSSIZE) : Consistent fmt s' ↔ entries % 64 ≠ 0 := by
  obtain ⟨own, sound⟩ := progress.good
  have most : Format.NINODES = 200 := rfl
  have dirent : DIRENT = 16 := rfl
  have high := progress.high
  have rootLive := progress.live
  constructor
  · -- the block that the rounding adds is a hole
    intro consistent full
    have needed : Place.Needed fmt (s'.rinode 1).size (.data (entries / 64)) := by
      rw [finished.root]
      simp only [Place.Needed, dirent, BSIZE]
      omega
    have live : (s'.rinode 1).type ≠ 0 := by
      rw [finished.root]
      exact sound.typed 1 rootLive
    have bounds := consistent.allocated 1 (.data (entries / 64)) ⟨le_refl 1, by decide, live, needed⟩
    have direct : entries / 64 < fmt.NDIRECT := by
      have least : 11 ≤ fmt.NDIRECT := by cases fmt <;> decide
      omega
    have none : own (1, .data (entries / 64)) = none := by
      by_contra some
      have needed := ((sound.owned _ _).mp some).2
      rw [progress.root] at needed
      simp only [Place.Needed, dirent, BSIZE] at needed
      omega
    have address := sound.maps.direct 1 rootLive _ direct
    rw [none] at address
    have hole : s'.blockOf fmt (s'.rinode 1) (.data (entries / 64)) = 0 := by
      rw [finished.root]
      unfold blockOf
      dsimp only
      rw [if_pos direct]
      exact address
    have positive := fmt.nmeta_pos
    omega
  · intro inner
    have type : ∀ inum < Format.NINODES, (s'.rinode inum).type = (s.rinode inum).type := by
      intro inum inside
      by_cases root : inum = 1
      · rw [root, finished.root]
      · rw [finished.other inside root]
    have addrs : ∀ inum < Format.NINODES, (s'.rinode inum).addrs = (s.rinode inum).addrs := by
      intro inum inside
      by_cases root : inum = 1
      · rw [root, finished.root]
      · rw [finished.other inside root]
    have size : ∀ inum < Format.NINODES, ∀ place : Place,
        place.Needed fmt (s'.rinode inum).size ↔ place.Needed fmt (s.rinode inum).size := by
      intro inum inside place
      by_cases root : inum = 1
      · rw [root, finished.root, progress.root]
        exact needed_round fmt high inner place
      · rw [finished.other inside root]
    have uses : ∀ inum place, s'.Uses fmt inum place ↔ own (inum, place) ≠ none := by
      intro inum place
      rw [sound.owned]
      constructor
      · intro used
        have live : s.Live inum := ⟨used.low, by
          by_contra above
          refine used.live ?_
          rw [type inum used.high]
          exact sound.free inum (Nat.le_of_not_lt above) used.high⟩
        exact ⟨live, (size inum used.high place).mp used.needed⟩
      · rintro ⟨live, needed⟩
        have inside : inum < Format.NINODES := by
          have below := live.2
          rw [progress.freeinode] at below
          omega
        refine ⟨live.1, inside, ?_, (size inum inside place).mpr needed⟩
        rw [type inum inside]
        exact sound.typed inum live
    have block : ∀ inum place, s'.Uses fmt inum place →
        own (inum, place) = some (s'.blockOf fmt (s'.rinode inum) place) := by
      intro inum place used
      obtain ⟨b, owned⟩ := Option.ne_none_iff_exists'.mp ((uses inum place).mp used)
      rw [owned, sound.blockOf_eq finished.data (addrs inum used.high) owned]
    constructor
    · intro inum place used
      have bounds := sound.maps.bump.bounds _ _ (block inum place used)
      exact ⟨bounds.1, by omega⟩
    · intro inum place inum' place' used used' equal
      have owned := block inum place used
      rw [equal] at owned
      exact Prod.mk.inj (sound.maps.bump.injective _ _ _ owned (block inum' place' used'))
    · intro b inside
      rw [finished.used b inside]
      constructor
      · intro below
        by_cases low : b < fmt.nmeta
        · exact .inl low
        · obtain ⟨⟨inum, place⟩, owned⟩ := sound.maps.bump.onto b (Nat.le_of_not_lt low) below
          have used : s'.Uses fmt inum place := (uses inum place).mpr (by simp [owned])
          refine .inr ⟨inum, place, used, ?_⟩
          have same := block inum place used
          rw [owned] at same
          exact (Option.some.inj same).symm
      · rintro (low | ⟨inum, place, used, rfl⟩)
        · exact lt_of_lt_of_le low sound.maps.bump.ordered
        · exact (sound.maps.bump.bounds _ _ (block inum place used)).2

/-- Files that fit and are not too large are put into an image. -/
theorem mkfs_small (fits : Fits fmt files) (small : ∀ file ∈ files, file.content.length ≤ limit fmt) :
    ∃ s, mkfs fmt files = .ok s ∧ (Consistent fmt s ↔ (files.length + 2) % 64 ≠ 0) := by
  obtain ⟨s₀, progress, blocks, run⟩ := mkfs_start fmt
  have inodes := fits.inodes
  have total := fits.blocks
  have bitmap := fits.bitmap
  rw [Nat.add_comm files.length 2] at inodes total bitmap ⊢
  obtain ⟨s₁, added, progress', count⟩ := addFiles_spec files progress inodes fits.names small (by omega)
  obtain ⟨s₂, finish, finished⟩ := finish_spec progress' (by omega)
  refine ⟨s₂, ?_, finished.consistent_iff progress' (by omega)⟩
  rw [run, added]
  exact finish

/-- If a file that fits is too large, there is no image. -/
theorem mkfs_large (fits : Fits fmt files) (large : ∃ file ∈ files, limit fmt < file.content.length) :
    mkfs fmt files ≠ .ok s := by
  intro result
  obtain ⟨s₀, progress, blocks, run⟩ := mkfs_start fmt
  have inodes := fits.inodes
  have total := fits.blocks
  rw [Nat.add_comm files.length 2] at inodes total
  rw [run] at result
  cases added : files.foldlM (addFile fmt) s₀ with
  | error abort => simp [added, Except.bind] at result
  | ok s₁ => exact addFiles_large files progress inodes fits.names large (by omega) added

/-- `mkfs` builds a consistent image of files that fit exactly when the entries of the root directory do not
fill its blocks, since rounding its size then adds a block that it does not have, and when no file needs a
double-indirect block, since `iappend` then leaves its array `indirect`. -/
theorem mkfs_consistent (fits : Fits fmt files) :
    (∃ s, mkfs fmt files = .ok s ∧ Consistent fmt s) ↔
      (files.length + 2) % 64 ≠ 0 ∧ ∀ file ∈ files, file.content.length ≤ limit fmt := by
  by_cases small : ∀ file ∈ files, file.content.length ≤ limit fmt
  · obtain ⟨s, run, consistent⟩ := mkfs_small fits small
    rw [← consistent, and_iff_left small]
    constructor
    · rintro ⟨s', run', done⟩
      rw [run] at run'
      cases run'
      exact done
    · exact fun done => ⟨s, run, done⟩
  · refine iff_of_false ?_ fun both => small both.2
    rintro ⟨s, run, -⟩
    have large : ∃ file ∈ files, limit fmt < file.content.length := by
      by_contra none
      exact small fun file inside => Nat.le_of_not_lt fun big => none ⟨file, inside, big⟩
    exact mkfs_large fits large run

/-- An image with one short file. -/
theorem mkfs_short : ∃ s, mkfs .mkfs [⟨[95, 97], [1, 2, 3]⟩] = .ok s ∧ Consistent .mkfs s :=
  (mkfs_consistent ⟨by decide, by decide, by decide, by decide, by decide⟩).mpr ⟨by decide, by decide⟩

/-- Empty files with names of two letters. -/
def emptyFiles (n : Nat) : List InputFile := (List.range n).map fun i => ⟨[97, .ofNat (48 + i)], []⟩

/-- With 62 files there are 64 entries, which fill a block, and the root directory has a hole. -/
theorem mkfs_hole : Fits .mkfs (emptyFiles 62) ∧
    ∃ s, mkfs .mkfs (emptyFiles 62) = .ok s ∧ ¬ Consistent .mkfs s := by
  have fits : Fits .mkfs (emptyFiles 62) := ⟨by decide, by decide, by decide, by decide, by decide⟩
  obtain ⟨s, run, consistent⟩ := mkfs_small fits (by decide)
  exact ⟨fits, s, run, fun done => absurd (by decide) (consistent.mp done)⟩

end Image

end Riscv2os.Xv7
