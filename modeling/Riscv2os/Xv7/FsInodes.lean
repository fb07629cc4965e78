import Riscv2os.Xv7.FsContent

/-!
# Inodes on disk and in memory

What `iupdate` writes reads back as the inode, and the files do not change as long as the addresses of the inodes,
the data blocks and the free map stay (`SameFiles`). The calls `readi` and `writei` follow from their loops.
-/

namespace Riscv2os.Xv7

open Riscv2os.Std
open RefTree (descend nodes Unshared)

namespace Dinode

variable {ip : Dinode}

/-- The fields fit the words on disk. -/
structure Fits (ip : Dinode) : Prop where
  size : ip.size < 2 ^ 32
  addrs : ∀ i, ip.addrs i < 2 ^ 32
  beyond : ∀ i, NADDRS ≤ i → ip.addrs i = 0

/-- An inode is made of its first words. -/
theorem ofWords_congr {words words' : Nat → Nat} (same : ∀ i < DINODE_WORDS, words i = words' i) :
    ofWords words = ofWords words' := by
  have count : DINODE_WORDS = NADDRS + 3 := rfl
  have addrs : (fun i => if i < NADDRS then words (i + 3) else 0) =
      fun i => if i < NADDRS then words' (i + 3) else 0 := by
    funext i
    split
    · next small => exact same _ (by omega)
    · rfl
  unfold ofWords
  rw [same 0 (by decide), same 1 (by decide), same 2 (by decide), addrs]

/-- Two halves of a word. -/
theorem ofNat_halves (low high : BitVec 16) :
    BitVec.ofNat 16 ((low.toNat + 2 ^ 16 * high.toNat) % 2 ^ 32) = low ∧
      BitVec.ofNat 16 ((low.toNat + 2 ^ 16 * high.toNat) % 2 ^ 32 / 2 ^ 16) = high := by
  have low_lt := low.isLt
  have high_lt := high.isLt
  constructor
  · refine BitVec.eq_of_toNat_eq ?_
    rw [BitVec.toNat_ofNat]
    omega
  · refine BitVec.eq_of_toNat_eq ?_
    rw [BitVec.toNat_ofNat]
    omega

/-- An inode reads back as it was written. -/
theorem ofWords_words (fits : ip.Fits) : ofWords (fun i => ip.words i % 2 ^ 32) = ip := by
  obtain ⟨type, major, minor, nlink, size, addrs⟩ := ip
  obtain ⟨type_eq, major_eq⟩ := ofNat_halves type major
  obtain ⟨minor_eq, nlink_eq⟩ := ofNat_halves minor nlink
  have size_eq : size % 2 ^ 32 = size := Nat.mod_eq_of_lt fits.size
  have addrs_eq : (fun i => if i < NADDRS then addrs i % 2 ^ 32 else 0) = addrs := by
    funext i
    split
    · exact Nat.mod_eq_of_lt (fits.addrs i)
    · next beyond => exact (fits.beyond i (not_lt.mp beyond)).symm
  simp only [ofWords, words, type_eq, major_eq, minor_eq, nlink_eq, size_eq, addrs_eq]

theorem fits_ofWords {words : Nat → Nat} (small : ∀ i, words i < 2 ^ 32) : (ofWords words).Fits where
  size := small 2
  addrs i := by
    show (if i < NADDRS then words (i + 3) else 0) < 2 ^ 32
    split
    · exact small _
    · decide
  beyond i large := if_neg (not_lt.mpr large)

end Dinode

namespace Fs

variable {s s' s₁ s₂ : Fs} {inum o b addr off n : Nat}

theorem fits_dinode (s : Fs) (inum : Nat) : (s.dinode inum).Fits := Dinode.fits_ofWords fun _ => Bytes.word_lt _ _

/-- Only the inode that is written changes. -/
theorem dinode_setDinode (words : Nat → Nat) (o : Nat) : (s.setDinode inum words).dinode o =
    if o = inum then .ofWords (fun i => words i % 2 ^ 32) else s.dinode o := by
  have perBlock : IPB = 16 := rfl
  have count : DINODE_WORDS = 16 := rfl
  have size : BSIZE = 1024 := rfl
  have block : (s.setDinode inum words).block (s.sb.IBLOCK o) = if s.sb.IBLOCK o = s.sb.IBLOCK inum then
      (s.block (s.sb.IBLOCK inum)).setWords (DINODE_WORDS * (inum % IPB)) DINODE_WORDS words
      else s.block (s.sb.IBLOCK o) := block_setBlock ..
  have slot (o : Nat) : o % IPB < 16 := Nat.mod_lt _ (by decide)
  have slots := slot inum
  have slots' := slot o
  unfold dinode
  change Dinode.ofWords (fun i => ((s.setDinode inum words).block (s.sb.IBLOCK o)).word _) = _
  rw [block]
  by_cases sameBlock : s.sb.IBLOCK o = s.sb.IBLOCK inum
  · rw [if_pos sameBlock]
    by_cases same : o = inum
    · rw [if_pos same, same]
      refine Dinode.ofWords_congr fun i small => ?_
      rw [Bytes.word_setWords _ _ (by rw [count] at small ⊢; rw [size]; omega), if_pos (by omega),
        Nat.add_sub_cancel_left]
    · have quotient : o / IPB = inum / IPB := Nat.add_right_cancel sameBlock
      have apart : o % IPB ≠ inum % IPB := by
        intro remainder
        exact same (by rw [← Nat.div_add_mod o IPB, quotient, remainder, Nat.div_add_mod])
      rw [if_neg same, ← sameBlock]
      refine Dinode.ofWords_congr fun i small => ?_
      rw [Bytes.word_setWords _ _ (by rw [count] at small ⊢; rw [size]; omega), if_neg]
      rw [count] at small ⊢
      omega
  · have apart : o ≠ inum := by
      rintro rfl
      exact sameBlock rfl
    rw [if_neg sameBlock, if_neg apart]

/-! ## The same files -/

/-- The inodes have the same addresses, and the data blocks and the free map are the same. -/
structure SameFiles (s s' : Fs) : Prop where
  sb : s'.sb = s.sb
  isUsed : ∀ x < s.sb.size, s'.isUsed x = s.isUsed x
  block : ∀ x, s.sb.dataStart ≤ x → s'.block x = s.block x
  addrs : ∀ o < s.sb.ninodes, (s'.inode o).addrs = (s.inode o).addrs

namespace SameFiles

theorem refl (s : Fs) : SameFiles s s := ⟨rfl, fun _ _ => rfl, fun _ _ => rfl, fun _ _ => rfl⟩

theorem trans (first : SameFiles s s₁) (second : SameFiles s₁ s') : SameFiles s s' where
  sb := second.sb.trans first.sb
  isUsed x inside := (second.isUsed x (first.sb ▸ inside)).trans (first.isUsed x inside)
  block x inData := (second.block x (by rw [first.sb]; exact inData)).trans (first.block x inData)
  addrs o inside := (second.addrs o (first.sb ▸ inside)).trans (first.addrs o inside)

variable (same : SameFiles s s') (sound : s.Sound)
include same

theorem dataStart : s'.sb.dataStart = s.sb.dataStart := congrArg _ same.sb

theorem freeBlocks : s'.freeBlocks = s.freeBlocks := by
  ext x
  simp only [Fs.freeBlocks, Finset.mem_filter, Finset.mem_range, same.sb]
  refine and_congr_right fun inside => ?_
  rw [same.isUsed x inside]

include sound

/-- The places have the same blocks, -/
theorem descend {path : List Nat} (inShape : path ∈ Shape) :
    RefTree.descend s'.refs .root path = RefTree.descend s.refs .root path := by
  refine RefTree.descend_congr shape_closed (fun {before j last} below above => ?_) inShape
  cases last with
  | root => rw [refs_root, refs_root, same.sb]
  | inode o => rw [refs_inode, refs_inode, same.addrs o (inode_inside above)]
  | block x =>
      have inData := (sound.inData x ⟨before, shape_closed below, above⟩).1
      rw [refs_block, refs_block, same.block x inData]

/-- The same blocks are in use. -/
theorem nodes : RefTree.nodes s'.refs .root Shape = RefTree.nodes s.refs .root Shape := by
  ext node
  refine exists_congr fun path => and_congr_right fun inShape => ?_
  rw [same.descend sound inShape]

theorem after : s'.Sound where
  layout := same.sb ▸ sound.layout
  metaUsed x below := by
    rw [same.dataStart] at below
    rw [same.isUsed x (below.trans_le (Nat.sub_le ..))]
    exact sound.metaUsed x below
  unshared := sound.unshared.mono fun inShape found => by rw [← same.descend sound inShape, found]
  inData := by
    intro x inTree
    rw [same.nodes sound] at inTree
    obtain ⟨inData, inside, used⟩ := sound.inData x inTree
    rw [same.sb]
    exact ⟨inData, inside, by rw [same.isUsed x inside, used]⟩

/-- and no block is lost. -/
theorem lost : s'.lost = s.lost := by
  ext x
  simp only [Fs.lost, Set.mem_ofPred_eq, same.sb]
  refine and_congr_right fun _ => and_congr_right fun inside => ?_
  rw [same.isUsed x inside, same.nodes sound]

theorem dataBlock (o : Nat) {bn : Nat} (small : bn < MAXFILE) : s'.dataBlock o bn = s.dataBlock o bn := by
  unfold Fs.dataBlock
  rw [same.descend sound (dataPath_mem o small)]

/-- The files keep their bytes. -/
theorem byteAt (o : Nat) {k : Nat} (small : k < MAXFILE * BSIZE) : s'.byteAt o k = s.byteAt o k := by
  unfold Fs.byteAt
  rw [same.dataBlock sound o (bn_small small)]
  cases found : s.dataBlock o (k / BSIZE) with
  | none => rfl
  | some b =>
      show (s'.block b).byte _ = (s.block b).byte _
      rw [same.block b (dataBlock_inData sound (bn_small small) found)]

theorem bytes (o : Nat) (inFile : off + n ≤ MAXFILE * BSIZE) : s'.bytes o off n = s.bytes o off n :=
  bytes_congr fun k _ below => same.byteAt sound o (by omega)

end SameFiles

/-- Storing an inode on disk changes no bit of the free map. -/
theorem isUsed_setDinode (layout : s.sb.Layout) (inside : inum < s.sb.ninodes) (words : Nat → Nat) {x : Nat}
    (small : x < s.sb.size) : (s.setDinode inum words).isUsed x = s.isUsed x := by
  have block : (s.setDinode inum words).block (s.sb.BBLOCK x) = s.block (s.sb.BBLOCK x) := by
    unfold setDinode
    rw [block_setBlock, if_neg (layout.apart x small inum inside)]
  show Bytes.bit ((s.setDinode inum words).block (s.sb.BBLOCK x)) _ = _
  rw [block]
  rfl

/-- Storing an inode on disk changes no data block. -/
theorem block_setDinode (layout : s.sb.Layout) (inside : inum < s.sb.ninodes) (words : Nat → Nat) {x : Nat}
    (inData : s.sb.dataStart ≤ x) : (s.setDinode inum words).block x = s.block x := by
  have below := layout.inodes inum inside
  unfold setDinode
  rw [block_setBlock, if_neg (by omega)]

/-- An inode is written back with the references that it has. -/
theorem setDinode_sameFiles (layout : s.sb.Layout) (inside : inum < s.sb.ninodes) {words : Nat → Nat}
    (addrs : ((s.setDinode inum words).inode inum).addrs = (s.inode inum).addrs) :
    SameFiles s (s.setDinode inum words) where
  sb := rfl
  isUsed _ small := isUsed_setDinode layout inside words small
  block _ inData := block_setDinode layout inside words inData
  addrs o _ := by
    by_cases same : o = inum
    · rw [same, addrs]
    · have dinode : (s.setDinode inum words).dinode o = s.dinode o := by rw [dinode_setDinode, if_neg same]
      unfold inode
      rw [dinode]
      rfl

/-- `iupdate` changes only the copy on disk. -/
theorem iupdate_sameFiles (layout : s.sb.Layout) (inside : inum < s.sb.ninodes)
    (valid : (s.icache inum).valid = true) : SameFiles s (s.iupdate inum) :=
  setDinode_sameFiles layout inside <| by
    rw [inode_of_valid valid]
    show ((s.setDinode inum _).inode inum).addrs = _
    rw [inode_of_valid (s := s.setDinode inum _) valid]
    rfl

/-- `iupdate` writes the inode that is in the cache. -/
theorem dinode_iupdate (fits : (s.ip inum).Fits) (o : Nat) :
    (s.iupdate inum).dinode o = if o = inum then s.ip inum else s.dinode o := by
  unfold iupdate
  rw [dinode_setDinode, Dinode.ofWords_words fits]

/-- A change of an inode in memory that keeps its addresses. -/
theorem setIp_sameFiles {ip : Dinode} (addrs : ip.addrs = (s.ip inum).addrs)
    (valid : (s.icache inum).valid = true) : SameFiles s (s.setIp inum ip) where
  sb := rfl
  isUsed _ _ := rfl
  block _ _ := rfl
  addrs o _ := by
    rw [inode_setIp valid]
    split
    · next same => rw [addrs, same, inode_of_valid valid]
    · rfl

end Fs

end Riscv2os.Xv7
