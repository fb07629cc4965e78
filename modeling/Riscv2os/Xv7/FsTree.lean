import Riscv2os.Std.ReferenceTree
import Riscv2os.Xv7.Fs

/-!
# The blocks of files as trees

Below a root that refers to all inodes, the inodes refer to blocks by `addrs`, and index blocks by their words.
While `Sound` holds, no block has two places in these trees, and all of them are data blocks that the free map
counts as used. Of an inode that is in memory the tree has the copy there.
-/

namespace Riscv2os.Xv7

open Riscv2os.Std
open RefTree (descend nodes Unshared)

namespace Superblock

/-- The first data block. -/
def dataStart (sb : Superblock) : Nat := sb.size - sb.nblocks

/-- The inodes and the free map lie in front of the data blocks, and apart from each other. -/
structure Layout (sb : Superblock) : Prop where
  small : sb.size < 2 ^ 32
  positive : 0 < sb.dataStart
  bitmap : ∀ b < sb.size, sb.BBLOCK b < sb.dataStart
  inodes : ∀ inum < sb.ninodes, sb.IBLOCK inum < sb.dataStart
  apart : ∀ b < sb.size, ∀ inum < sb.ninodes, sb.BBLOCK b ≠ sb.IBLOCK inum

end Superblock

namespace Fs

variable {s s' s₁ : Fs} {inum b addr : Nat}

/-- The inode as the file system sees it: the copy in memory, if there is one. -/
def inode (s : Fs) (inum : Nat) : Dinode := if (s.icache inum).valid then s.ip inum else s.dinode inum

/-- What refers to blocks. -/
inductive Node where
  | root
  | inode (inum : Nat)
  | block (b : Nat)
deriving DecidableEq

/-- The reference that a block number stands for. -/
def Node.ofAddr (addr : Nat) : Option Node := if addr = 0 then none else some (.block addr)

def refs (s : Fs) : Node → Nat → Option Node
  | .root, inum => if inum < s.sb.ninodes then some (.inode inum) else none
  | .inode inum, i => Node.ofAddr ((s.inode inum).addrs i)
  | .block b, j => Node.ofAddr ((s.block b).word j)

theorem Node.ofAddr_zero : Node.ofAddr 0 = none := rfl

theorem Node.ofAddr_pos (positive : addr ≠ 0) : Node.ofAddr addr = some (.block addr) := if_neg positive

theorem refs_root (s : Fs) (inum : Nat) :
    s.refs .root inum = if inum < s.sb.ninodes then some (.inode inum) else none := rfl

theorem refs_inode (s : Fs) (inum i : Nat) : s.refs (.inode inum) i = Node.ofAddr ((s.inode inum).addrs i) := rfl

theorem refs_block (s : Fs) (b j : Nat) : s.refs (.block b) j = Node.ofAddr ((s.block b).word j) := rfl

/-- The paths to inodes, to index blocks and to the blocks of files. -/
def Shape : Set (List Nat) := fun path =>
  match path with
  | [] | [_] => True
  | [_, i] => i < NADDRS
  | [_, i, j] => (i = NDIRECT ∨ i = NDIRECT + 1) ∧ j < NINDIRECT
  | [_, i, j, k] => i = NDIRECT + 1 ∧ j < NINDIRECT ∧ k < NINDIRECT
  | _ => False

/-- What leads to a place is a place. -/
theorem shape_closed : RefTree.Closed Shape := by
  intro path i inShape
  match path, inShape with
  | [], _ | [_], _ => trivial
  | [_, i], inShape =>
      rcases inShape.1 with rfl | rfl
      · exact (by decide : NDIRECT < NADDRS)
      · exact (by decide : NDIRECT + 1 < NADDRS)
  | [_, i, j], inShape => exact ⟨.inr inShape.1, inShape.2.1⟩
  | [_, _, _, _], inShape | _ :: _ :: _ :: _ :: _ :: _, inShape => exact False.elim inShape

/-- The path of a block of a file. -/
def dataPath (inum bn : Nat) : List Nat :=
  if bn < NDIRECT then [inum, bn]
  else if bn - NDIRECT < NINDIRECT then [inum, NDIRECT, bn - NDIRECT]
  else [inum, NDIRECT + 1, (bn - NDIRECT - NINDIRECT) / NINDIRECT, (bn - NDIRECT - NINDIRECT) % NINDIRECT]

theorem NINDIRECT_eq : NINDIRECT = 256 := rfl

/-- Every block number of a file has its place. -/
theorem dataPath_mem (inum : Nat) {bn : Nat} (small : bn < MAXFILE) : dataPath inum bn ∈ Shape := by
  have file : MAXFILE = 65803 := rfl
  unfold dataPath
  split
  · next direct => exact direct.trans (by decide)
  split
  · next single => exact ⟨.inl rfl, single⟩
  · next direct single =>
      rw [NINDIRECT_eq] at single ⊢
      have eleven : NDIRECT = 11 := rfl
      refine ⟨rfl, ?_, ?_⟩
      · rw [NINDIRECT_eq]
        omega
      · exact Nat.mod_lt _ (by decide)

/-- Nothing is below a block of a file. -/
theorem dataPath_last {inum bn i : Nat} : dataPath inum bn ++ [i] ∉ Shape := by
  unfold dataPath
  split
  · next direct =>
      intro inShape
      rcases inShape.1 with rfl | rfl <;> revert direct <;> decide
  split
  · intro inShape
    exact absurd inShape.1 (by decide)
  · exact fun inShape => inShape

/-- Different blocks of files have different places. -/
theorem dataPath_inj {inum inum' bn bn' : Nat} (same : dataPath inum bn = dataPath inum' bn') :
    inum = inum' ∧ bn = bn' := by
  unfold dataPath at same
  have eleven : NDIRECT = 11 := rfl
  rw [NINDIRECT_eq] at same
  split at same
  · split at same
    · simpa using same
    · split at same <;> simp at same
  split at same
  · split at same
    · simp at same
    split at same
    · simp only [List.cons.injEq, true_and, and_true] at same
      omega
    · simp at same
  · split at same
    · simp at same
    split at same
    · simp at same
    · simp only [List.cons.injEq, true_and, and_true] at same
      omega

def Node.number? : Node → Option Nat
  | .block b => some b
  | _ => none

/-- The block of a file, if it has been allocated. -/
def dataBlock (s : Fs) (inum bn : Nat) : Option Nat := (descend s.refs .root (dataPath inum bn)).bind Node.number?

/-- The block of a file is at the end of its path. -/
theorem dataBlock_eq_some {bn : Nat} :
    s.dataBlock inum bn = some b ↔ descend s.refs .root (dataPath inum bn) = some (.block b) := by
  unfold dataBlock
  cases descend s.refs .root (dataPath inum bn) with
  | none => simp
  | some node => cases node <;> simp [Node.number?]

/-- No block has two places, and all are data blocks in use. The blocks in front of them are in use. -/
structure Sound (s : Fs) : Prop where
  layout : s.sb.Layout
  metaUsed : ∀ b < s.sb.dataStart, s.isUsed b = true
  unshared : Unshared s.refs .root Shape
  inData : ∀ b, .block b ∈ nodes s.refs .root Shape → s.sb.dataStart ≤ b ∧ b < s.sb.size ∧ s.isUsed b = true

/-- The data blocks that count as used although no inode refers to them. -/
def lost (s : Fs) : Set Nat :=
  {b | s.sb.dataStart ≤ b ∧ b < s.sb.size ∧ s.isUsed b = true ∧ .block b ∉ nodes s.refs .root Shape}

/-! ## The free map -/

/-- One block is written. -/
theorem block_setBlock {data : Block} (b x : Nat) :
    (s.setBlock b data).block x = if x = b then data else s.block x := by
  unfold setBlock
  exact Function.update_apply ..

/-- One bit of the free map is written. -/
theorem isUsed_setUsed (value : Bool) (b x : Nat) :
    (s.setUsed b value).isUsed x = if x = b then value else s.isUsed x := by
  have inside : b % BPB / 8 < BSIZE := by
    have small : b % BPB < BPB := Nat.mod_lt _ (by decide)
    have bits : BPB = BSIZE * 8 := rfl
    omega
  unfold isUsed setUsed
  rw [block_setBlock]
  change (if s.sb.BBLOCK x = s.sb.BBLOCK b then _ else _ : Block).bit (x % BPB) = _
  by_cases sameBlock : s.sb.BBLOCK x = s.sb.BBLOCK b
  · rw [if_pos sameBlock, Bytes.bit_setBit _ _ inside, sameBlock]
    have place : x % BPB = b % BPB ↔ x = b := by
      have quotient : x / BPB = b / BPB := Nat.add_right_cancel sameBlock
      constructor
      · intro remainder
        rw [← Nat.div_add_mod x BPB, quotient, remainder, Nat.div_add_mod]
      · rintro rfl
        rfl
    simp only [place]
  · have apart : x ≠ b := by
      rintro rfl
      exact sameBlock rfl
    rw [if_neg sameBlock, if_neg apart]
    rfl

/-- The bits of the free map are not in a data block. -/
theorem isUsed_setBlock (layout : s.sb.Layout) {data : Block} {x : Nat} (inData : s.sb.dataStart ≤ b)
    (small : x < s.sb.size) : (s.setBlock b data).isUsed x = s.isUsed x := by
  unfold isUsed
  rw [block_setBlock]
  have apart : s.sb.BBLOCK x ≠ b := by
    have below := layout.bitmap x small
    omega
  exact congrArg (fun block : Block => block.bit (x % BPB)) (if_neg apart)

/-- A data block is none of the inodes. -/
theorem dinode_setBlock (layout : s.sb.Layout) {data : Block} (inData : s.sb.dataStart ≤ b)
    (small : inum < s.sb.ninodes) : (s.setBlock b data).dinode inum = s.dinode inum := by
  unfold dinode
  have apart : s.sb.IBLOCK inum ≠ b := by
    have below := layout.inodes inum small
    omega
  have same : (s.setBlock b data).block (s.sb.IBLOCK inum) = s.block (s.sb.IBLOCK inum) := by
    rw [block_setBlock, if_neg apart]
  change Dinode.ofWords (fun i => ((s.setBlock b data).block (s.sb.IBLOCK inum)).word _) = _
  rw [same]

/-- The free map is none of the inodes. -/
theorem dinode_setUsed (layout : s.sb.Layout) {value : Bool} (inside : b < s.sb.size)
    (small : inum < s.sb.ninodes) : (s.setUsed b value).dinode inum = s.dinode inum := by
  have same : (s.setUsed b value).block (s.sb.IBLOCK inum) = s.block (s.sb.IBLOCK inum) := by
    unfold setUsed
    rw [block_setBlock, if_neg (layout.apart b inside inum small).symm]
  unfold dinode
  change Dinode.ofWords (fun i => ((s.setUsed b value).block (s.sb.IBLOCK inum)).word _) = _
  rw [same]

/-- What `balloc` does. -/
structure Allocates (s : Fs) (b : Nat) (s' : Fs) : Prop where
  free : s.isUsed b = false
  inData : s.sb.dataStart ≤ b
  small : b < s.sb.size
  sb : s'.sb = s.sb
  icache : s'.icache = s.icache
  dinode : ∀ inum < s.sb.ninodes, s'.dinode inum = s.dinode inum
  zero : s'.block b = fun _ => 0
  block : ∀ x, s.sb.dataStart ≤ x → x ≠ b → s'.block x = s.block x
  isUsed : ∀ x < s.sb.size, s'.isUsed x = if x = b then true else s.isUsed x

/-- `balloc` takes a free block, and only its bit changes. -/
theorem balloc_ok (sound : s.Sound) (ran : s.balloc = .ok (b, s')) : Allocates s b s' := by
  unfold balloc at ran
  cases found : s.firstFree with
  | none =>
      rw [found] at ran
      cases ran
  | some b' =>
      rw [found] at ran
      cases ran
      have layout := sound.layout
      have free : s.isUsed b = false := by simpa using List.find?_some found
      have small : b < s.sb.size := List.mem_range.mp (List.mem_of_find?_eq_some found)
      have inData : s.sb.dataStart ≤ b := by
        by_contra below
        rw [sound.metaUsed b (not_le.mp below)] at free
        cases free
      exact {
        free := free
        inData := inData
        small := small
        sb := rfl
        icache := rfl
        dinode := fun inum inside =>
          (dinode_setBlock (s := s.setUsed b true) layout inData inside).trans (dinode_setUsed layout small inside)
        zero := by
          unfold bzero
          rw [block_setBlock, if_pos rfl]
        block := by
          intro x inData' apart
          unfold bzero setUsed
          have below := layout.bitmap b small
          rw [block_setBlock, if_neg apart, block_setBlock, if_neg (by omega)]
        isUsed := by
          intro x inside
          exact (isUsed_setBlock (s := s.setUsed b true) layout inData inside).trans (isUsed_setUsed true b x) }

/-- `balloc` fails only if all blocks are in use. -/
theorem balloc_fails {fault : Fault} (ran : s.balloc = .error fault) :
    fault = .panic "balloc: out of blocks" ∧ ∀ b < s.sb.size, s.isUsed b = true := by
  unfold balloc at ran
  cases found : s.firstFree with
  | some b =>
      rw [found] at ran
      cases ran
  | none =>
      rw [found] at ran
      cases ran
      refine ⟨rfl, fun b small => ?_⟩
      simpa using List.find?_eq_none.mp found b (List.mem_range.mpr small)

end Fs

end Riscv2os.Xv7
