import Mathlib.Data.List.GetD
import Riscv2os.Xv7.FsGrowth

/-!
# The content of files

The bytes of a file, and what the loops of `readi` and `writei` do to them. A write changes the bytes that it
copies, and no other byte of any file. It can only fail when blocks run out.
-/

namespace Riscv2os.Xv7

open Riscv2os.Std
open RefTree (descend nodes Unshared)

namespace Fs

variable {s s' s₁ s₂ : Fs} {inum o b addr off n : Nat}

/-- A byte of a file. The bytes of blocks that have not been allocated are zero. -/
def byteAt (s : Fs) (inum k : Nat) : UInt8 :=
  (s.dataBlock inum (k / BSIZE)).elim 0 fun b => (s.block b).byte (k % BSIZE)

theorem bn_small {k : Nat} (small : k < MAXFILE * BSIZE) : k / BSIZE < MAXFILE :=
  Nat.div_lt_of_lt_mul (by rwa [Nat.mul_comm])

theorem Grows.dataBlock (grows : Grows inum s s') {bn : Nat} (small : bn < MAXFILE)
    (found : s.dataBlock o bn = some b) : s'.dataBlock o bn = some b :=
  dataBlock_eq_some.mpr (grows.kept (dataPath_mem o small) (dataBlock_eq_some.mp found))

/-- A file that grows keeps its bytes. -/
theorem Grows.byteAt (grows : Grows inum s s') {k : Nat} (small : k < MAXFILE * BSIZE) :
    s'.byteAt o k = s.byteAt o k := by
  have inShape := dataPath_mem o (bn_small small)
  unfold Fs.byteAt
  cases found : s'.dataBlock o (k / BSIZE) with
  | none =>
      cases before : s.dataBlock o (k / BSIZE) with
      | none => rfl
      | some b =>
          rw [grows.dataBlock (bn_small small) before] at found
          cases found
  | some b =>
      have after := dataBlock_eq_some.mp found
      rcases grows.data inShape (fun i => dataPath_last) after with ⟨before, same⟩ | ⟨before, zero⟩
      · rw [dataBlock_eq_some.mpr before]
        show (s'.block b).byte _ = (s.block b).byte _
        rw [same]
      · have missing : s.dataBlock o (k / BSIZE) = none := by
          unfold Fs.dataBlock
          rw [before]
          rfl
        rw [missing]
        show (s'.block b).byte _ = 0
        rw [zero]
        exact ite_self _

/-! ## A block of a file is changed -/

section SetBlock

variable (sound : s.Sound) {bn : Nat} (small : bn < MAXFILE) (found : s.dataBlock inum bn = some b)
include sound small found

theorem dataBlock_inData : s.sb.dataStart ≤ b :=
  (sound.inData b ⟨_, dataPath_mem inum small, dataBlock_eq_some.mp found⟩).1

/-- The blocks of files refer to nothing. -/
theorem descend_setBlock (data : Block) {path : List Nat} (inShape : path ∈ Shape) :
    descend (s.setBlock b data).refs .root path = descend s.refs .root path := by
  refine RefTree.descend_congr shape_closed (fun {before j last} below above => ?_) inShape
  cases last with
  | root => rfl
  | inode o =>
      rw [refs_inode, refs_inode,
        inode_setBlock sound.layout (dataBlock_inData sound small found) (inode_inside above)]
  | block x =>
      have apart : x ≠ b := by
        rintro rfl
        have same := sound.unshared (shape_closed below) (dataPath_mem inum small) above
          (dataBlock_eq_some.mp found)
        rw [same] at below
        exact dataPath_last below
      rw [refs_block, refs_block, block_setBlock, if_neg apart]

/-- The content of a data block refers to nothing. -/
theorem nodes_setBlock (data : Block) :
    nodes (s.setBlock b data).refs .root Shape = nodes s.refs .root Shape := by
  ext node
  refine exists_congr fun path => and_congr_right fun inShape => ?_
  rw [descend_setBlock sound small found data inShape]

theorem isUsed_setData (data : Block) {x : Nat} (inside : x < s.sb.size) :
    (s.setBlock b data).isUsed x = s.isUsed x :=
  isUsed_setBlock sound.layout (dataBlock_inData sound small found) inside

/-- Data can be written to a data block. -/
theorem Sound.setBlock (data : Block) : (s.setBlock b data).Sound where
  layout := sound.layout
  metaUsed x below := by
    rw [isUsed_setData sound small found data (below.trans_le (Nat.sub_le ..))]
    exact sound.metaUsed x below
  unshared := sound.unshared.mono fun inShape there => by
    rw [← descend_setBlock sound small found data inShape, there]
  inData := by
    intro x inTree
    rw [nodes_setBlock sound small found data] at inTree
    obtain ⟨inData, inside, used⟩ := sound.inData x inTree
    exact ⟨inData, inside, by rw [isUsed_setData sound small found data inside, used]⟩

theorem freeBlocks_setBlock (data : Block) : (s.setBlock b data).freeBlocks = s.freeBlocks := by
  refine Finset.filter_congr fun x member => ?_
  rw [isUsed_setData sound small found data (Finset.mem_range.mp member)]

theorem lost_setBlock (data : Block) : (s.setBlock b data).lost = s.lost := by
  ext x
  refine and_congr_right fun _ => and_congr_right fun inside => ?_
  rw [isUsed_setData sound small found data inside, nodes_setBlock sound small found data]

/-- The blocks of the files stay. -/
theorem dataBlock_setBlock (data : Block) {bn' : Nat} (small' : bn' < MAXFILE) :
    (s.setBlock b data).dataBlock o bn' = s.dataBlock o bn' := by
  unfold Fs.dataBlock
  rw [descend_setBlock sound small found data (dataPath_mem o small')]

/-- Only the bytes of that block change. -/
theorem byteAt_setBlock (data : Block) {k : Nat} (inFile : k < MAXFILE * BSIZE) :
    (s.setBlock b data).byteAt o k =
      if o = inum ∧ k / BSIZE = bn then data.byte (k % BSIZE) else s.byteAt o k := by
  unfold byteAt
  rw [dataBlock_setBlock sound small found data (bn_small inFile)]
  by_cases here : o = inum ∧ k / BSIZE = bn
  · rw [if_pos here, here.1, here.2, found]
    show Bytes.byte ((s.setBlock b data).block b) _ = _
    rw [block_setBlock, if_pos rfl]
  · rw [if_neg here]
    cases other : s.dataBlock o (k / BSIZE) with
    | none => rfl
    | some x =>
        have apart : x ≠ b := by
          rintro rfl
          exact here (dataPath_inj (sound.unshared (dataPath_mem o (bn_small inFile)) (dataPath_mem inum small)
            (dataBlock_eq_some.mp other) (dataBlock_eq_some.mp found)))
        show Bytes.byte ((s.setBlock b data).block x) _ = _
        rw [block_setBlock, if_neg apart]
        rfl

theorem keeps_setBlock (data : Block) : KeepsInodes inum s (s.setBlock b data) where
  sb := rfl
  ref _ := rfl
  valid _ := rfl
  ip := ⟨_, rfl, fun _ _ => rfl⟩
  other _ _ := rfl
  dinode _ inside := dinode_setBlock sound.layout (dataBlock_inData sound small found) inside

end SetBlock

/-! ## Writes -/

/-- Bytes have been written to a file, and nothing else has changed. -/
structure Written (inum off : Nat) (bytes : List UInt8) (s s' : Fs) : Prop extends KeepsInodes inum s s' where
  sound : s'.Sound
  kept : ∀ {o bn b}, bn < MAXFILE → s.dataBlock o bn = some b → s'.dataBlock o bn = some b
  present : ∀ k, off ≤ k → k < off + bytes.length → (s'.dataBlock inum (k / BSIZE)).isSome
  byte : ∀ {o k}, k < MAXFILE * BSIZE → s'.byteAt o k =
    if o = inum ∧ off ≤ k ∧ k < off + bytes.length then bytes.getD (k - off) 0 else s.byteAt o k
  lost : s'.lost = s.lost

theorem Written.nil (sound : s.Sound) (inum off : Nat) : Written inum off [] s s where
  toKeepsInodes := .refl inum s
  sound := sound
  kept _ found := found
  present k above below := by
    rw [List.length_nil] at below
    omega
  byte _ := by
    rw [if_neg]
    rintro ⟨-, above, below⟩
    rw [List.length_nil] at below
    omega
  lost := rfl

/-- Two writes that follow each other. -/
theorem Written.append {bytes more : List UInt8} (first : Written inum off bytes s s₁)
    (second : Written inum (off + bytes.length) more s₁ s')
    (inFile : off + bytes.length + more.length ≤ MAXFILE * BSIZE) :
    Written inum off (bytes ++ more) s s' where
  toKeepsInodes := first.toKeepsInodes.trans second.toKeepsInodes
  sound := second.sound
  kept small found := second.kept small (first.kept small found)
  present := by
    intro k above below
    rw [List.length_append] at below
    by_cases early : k < off + bytes.length
    · obtain ⟨b, found⟩ := Option.isSome_iff_exists.mp (first.present k above early)
      rw [second.kept (bn_small (by omega)) found]
      rfl
    · exact second.present k (by omega) (by omega)
  byte := by
    intro o k small
    rw [second.byte small, first.byte small, List.length_append]
    by_cases here : o = inum
    · by_cases early : k < off + bytes.length
      · rw [if_neg (by omega)]
        by_cases above : off ≤ k
        · rw [if_pos (by omega), if_pos (by omega), List.getD_append _ _ _ _ (by omega)]
        · rw [if_neg (by omega), if_neg (by omega)]
      · by_cases within : k < off + bytes.length + more.length
        · rw [if_pos (by omega), if_pos (by omega), List.getD_append_right _ _ _ _ (by omega)]
          congr 1
          omega
        · rw [if_neg (by omega), if_neg (by omega), if_neg (by omega)]
    · rw [if_neg (by tauto), if_neg (by tauto), if_neg (by tauto)]
  lost := second.lost.trans first.lost

/-- One round of `writei`: the block is found, and bytes are stored in it. -/
theorem Reaches.written {count : Nat} {bytes : List UInt8}
    (reached : Reaches s inum (dataPath inum (off / BSIZE)) addr count s₁)
    (fits : off % BSIZE + bytes.length ≤ BSIZE) (inFile : off < MAXFILE * BSIZE) :
    Written inum off bytes s (s₁.setBlock addr ((s₁.block addr).splice (off % BSIZE) bytes)) := by
  have small := bn_small inFile
  have found : s₁.dataBlock inum (off / BSIZE) = some addr := dataBlock_eq_some.mpr reached.found
  have size : BSIZE = 1024 := rfl
  constructor
  · exact reached.grows.toKeepsInodes.trans (keeps_setBlock reached.sound small found _)
  · exact reached.sound.setBlock small found _
  · intro o bn b small' there
    rw [dataBlock_setBlock reached.sound small found _ small']
    exact reached.grows.dataBlock small' there
  · intro k above below
    have same : k / BSIZE = off / BSIZE := by
      rw [size] at fits ⊢
      omega
    rw [same, dataBlock_setBlock reached.sound small found _ small, found]
    rfl
  · intro o k small'
    rw [byteAt_setBlock reached.sound small found _ small', Bytes.byte_splice _ _ _ _ (Nat.mod_lt _ (by decide))]
    have old := reached.grows.byteAt (o := o) small'
    by_cases here : o = inum ∧ k / BSIZE = off / BSIZE
    · obtain ⟨rfl, same⟩ := here
      have block : Bytes.byte (s₁.block addr) (k % BSIZE) = s.byteAt o k := by
        rw [← old, Fs.byteAt, same, found]
        rfl
      rw [if_pos ⟨rfl, same⟩, block]
      have place : k - off = k % BSIZE - off % BSIZE := by
        rw [size] at same ⊢
        omega
      have range : (off % BSIZE ≤ k % BSIZE ∧ k % BSIZE < off % BSIZE + bytes.length) ↔
          (o = o ∧ off ≤ k ∧ k < off + bytes.length) := by
        rw [size] at same ⊢
        omega
      rw [place]
      exact if_congr range rfl rfl
    · rw [if_neg here, old, if_neg]
      rintro ⟨rfl, above, below⟩
      refine here ⟨rfl, ?_⟩
      rw [size] at fits ⊢
      omega
  · rw [lost_setBlock reached.sound small found, reached.grows.lost]

/-- The blocks of a file that hold its bytes from `off` on. -/
def touched (off n : Nat) : Nat := (off % BSIZE + n + (BSIZE - 1)) / BSIZE

/-- Where a write stops, if `len` of the bytes can be read: behind the last block that was copied whole. -/
def writeEnd (off n len : Nat) : Nat := if n ≤ len then off + n else max off ((off + len) / BSIZE * BSIZE)

/-- The bytes that the direct blocks and the indirect block hold. -/
def singleBytes : Nat := (NDIRECT + NINDIRECT) * BSIZE

/-- The roots of the trees below `addrs[NDIRECT + 1]` are the same. -/
def SameDouble (s s' : Fs) : Prop :=
  ∀ o, descend s'.refs .root [o, NDIRECT + 1] = descend s.refs .root [o, NDIRECT + 1]

theorem doublePath_mem (o : Nat) : [o, NDIRECT + 1] ∈ Shape :=
  (show NDIRECT + 1 < NADDRS by decide)

/-- The direct blocks and those of the indirect block are not below `addrs[NDIRECT + 1]`. -/
theorem dataPath_single {bn : Nat} (single : bn < NDIRECT + NINDIRECT) (o : Nat) :
    ¬ [o, NDIRECT + 1] <+: dataPath inum bn := by
  unfold dataPath
  split
  · next direct =>
      intro before
      have equal := before.eq_of_length rfl
      simp only [List.cons.injEq, and_true] at equal
      omega
  · rw [if_pos (by omega)]
    intro before
    simp at before

/-- The result of a write of `n` bytes, of which the source has those that are given. -/
def Writes (s : Fs) (inum off n : Nat) (src : List UInt8) : Except Fault (Nat × Fs) → Prop
  | .ok (stop, s') => stop = writeEnd off n src.length ∧ Written inum off (src.take n) s s' ∧
      (off + n ≤ singleBytes → SameDouble s s') ∧
      s.freeBlocks.card ≤ s'.freeBlocks.card + 3 * touched off n
  | .error fault => fault = .panic "balloc: out of blocks" ∧ s.freeBlocks.card < 3 * touched off n

/-- The bytes of a block that a round copies end the block, or they are the last. -/
theorem round_ends {m : Nat} (chunk : m = min n (BSIZE - off % BSIZE)) (more : 0 < n) :
    0 < m ∧ off % BSIZE + m ≤ BSIZE ∧ m ≤ n ∧ (m < n → off % BSIZE + m = BSIZE) := by
  have small : off % BSIZE < BSIZE := Nat.mod_lt _ (by decide)
  omega

/-- A block has been copied whole, and others follow. -/
theorem writeEnd_next {m len : Nat} (ends : off % BSIZE + m = BSIZE) (copied : m ≤ len) (more : m < n) :
    writeEnd off n len = writeEnd (off + m) (n - m) (len - m) := by
  unfold writeEnd
  have size : BSIZE = 1024 := rfl
  rw [size] at ends ⊢
  split <;> split <;> omega

/-- A write without source bytes for all of a block stops there. -/
theorem writeEnd_stop {len : Nat} (short : len < n) (inside : off % BSIZE + len < BSIZE) :
    writeEnd off n len = off := by
  unfold writeEnd
  have size : BSIZE = 1024 := rfl
  rw [size] at inside ⊢
  rw [if_neg (by omega)]
  omega

/-- What `writei` touches, a block at a time. -/
theorem touched_next {m : Nat} (ends : off % BSIZE + m = BSIZE) (more : m < n) :
    touched off n = touched (off + m) (n - m) + 1 := by
  unfold touched
  have size : BSIZE = 1024 := rfl
  rw [size] at ends ⊢
  omega

theorem touched_pos (more : 0 < n) : 0 < touched off n := by
  unfold touched
  have size : BSIZE = 1024 := rfl
  rw [size]
  omega

/-- A round, and the rounds behind it. -/
theorem Writes.next {m : Nat} {src : List UInt8} {result : Except Fault (Nat × Fs)}
    (first : Written inum off (src.take m) s s₁) (double : off < singleBytes → SameDouble s s₁)
    (free : s.freeBlocks.card ≤ s₁.freeBlocks.card + 3)
    (rest : Writes s₁ inum (off + m) (n - m) (src.drop m) result) (copied : m ≤ src.length) (more : m < n)
    (ends : off % BSIZE + m = BSIZE) (inFile : off + n ≤ MAXFILE * BSIZE) : Writes s inum off n src result := by
  have length : (src.take m).length = m := by rw [List.length_take, min_eq_left copied]
  cases result with
  | error fault =>
      obtain ⟨full, few⟩ := rest
      refine ⟨full, ?_⟩
      rw [touched_next ends more]
      omega
  | ok stopped =>
      obtain ⟨stop, s'⟩ := stopped
      obtain ⟨atStop, second, double', free'⟩ := rest
      rw [List.length_drop, ← writeEnd_next ends copied more] at atStop
      have count := touched_next ends more
      refine ⟨atStop, ?_, fun low o => ?_, by omega⟩
      rotate_left
      · rw [double' (by omega) o, double (by omega) o]
      have all : src.take n = src.take m ++ (src.drop m).take (n - m) := by
        rw [← List.take_add, Nat.add_sub_cancel' more.le]
      rw [all]
      refine first.append (by rwa [length]) ?_
      rw [length, List.length_take, List.length_drop]
      omega

/-- The loop of `writei`. -/
theorem writeLoop_writes (src : List UInt8) {rounds tot : Nat} (sound : s.Sound)
    (valid : (s.icache inum).valid = true) (inside : inum < s.sb.ninodes) (enough : n - tot ≤ rounds)
    (inFile : off + (n - tot) ≤ MAXFILE * BSIZE) :
    Writes s inum off (n - tot) (src.drop tot) (writeLoop inum n src rounds tot off s) := by
  induction rounds generalizing tot off s with
  | zero =>
      have done : n - tot = 0 := Nat.le_zero.mp enough
      rw [writeLoop, if_neg (by omega), done]
      exact ⟨rfl, .nil sound inum off, fun _ _ => rfl, Nat.le_add_right ..⟩
  | succ rounds ih =>
      rw [writeLoop]
      split
      · next more =>
          have found := bmap_tries sound valid inside (bn_small (by omega : off < MAXFILE * BSIZE))
          cases ran : s.bmap inum (off / BSIZE) with
          | error fault =>
              rw [ran] at found
              obtain ⟨full, few, -⟩ := found
              have positive : 0 < touched off (n - tot) := touched_pos (by omega)
              exact ⟨full, by omega⟩
          | ok reached =>
              obtain ⟨addr, s₁⟩ := reached
              rw [ran] at found
              rw [ok_bind]
              simp only
              generalize chunk : min (n - tot) (BSIZE - off % BSIZE) = m
              obtain ⟨positive, fits, le, ends⟩ := round_ends chunk.symm (by omega)
              have written : Written inum off ((src.drop tot).take m) s
                  (s₁.setBlock addr ((s₁.block addr).splice (off % BSIZE) ((src.drop tot).take m))) := by
                refine Reaches.written found ?_ (by omega)
                exact (Nat.add_le_add_left (List.length_take_le ..) _).trans fits
              have free : s.freeBlocks.card ≤
                  (s₁.setBlock addr ((s₁.block addr).splice (off % BSIZE) ((src.drop tot).take m))).freeBlocks.card
                    + 3 := by
                rw [freeBlocks_setBlock found.sound (bn_small (by omega)) (dataBlock_eq_some.mpr found.found)]
                exact found.free
              have double : off < singleBytes → SameDouble s
                  (s₁.setBlock addr ((s₁.block addr).splice (off % BSIZE) ((src.drop tot).take m))) := by
                intro low o
                rw [descend_setBlock found.sound (bn_small (by omega)) (dataBlock_eq_some.mpr found.found) _
                  (doublePath_mem o)]
                exact found.apart (doublePath_mem o)
                  (dataPath_single (Nat.div_lt_of_lt_mul (by rwa [Nat.mul_comm])) o)
              generalize s₁.setBlock addr _ = s₂ at written free double ⊢
              have count : 0 < touched off (n - tot) := touched_pos (by omega)
              split
              · -- `either_copyin` has failed
                next short =>
                rw [List.length_take] at short
                have all : (src.drop tot).take m = (src.drop tot).take (n - tot) := by
                  rw [List.take_of_length_le (by omega), List.take_of_length_le (by omega)]
                refine ⟨(writeEnd_stop (by omega) (by omega)).symm, ?_, fun low => double (by omega),
                  by omega⟩
                rwa [← all]
              · next copied =>
                rw [List.length_take] at copied
                have rest := ih written.sound ((written.valid inum).trans valid) (written.sb ▸ inside)
                  (by omega : n - (tot + m) ≤ rounds) (by omega : off + m + (n - (tot + m)) ≤ MAXFILE * BSIZE)
                rw [← List.drop_drop, Nat.sub_add_eq] at rest
                by_cases last : m < n - tot
                · exact .next written double free rest (by omega) last (ends last) inFile
                · -- The last block has been copied.
                  have same : n - tot = m := by omega
                  have done : writeLoop inum n src rounds (tot + m) (off + m) s₂ = .ok (off + m, s₂) := by
                    cases rounds <;> rw [writeLoop, if_neg (by omega)]
                  rw [done]
                  rw [same] at count ⊢
                  refine ⟨?_, written, fun low => double (by omega), by omega⟩
                  rw [writeEnd, if_pos (by omega)]
      · next done =>
          have none : n - tot = 0 := by omega
          rw [none]
          exact ⟨rfl, .nil sound inum off, fun _ _ => rfl, Nat.le_add_right ..⟩

/-! ## Reads -/

/-- The bytes of a file from an offset on. -/
def bytes (s : Fs) (inum off n : Nat) : List UInt8 := (List.range n).map fun i => s.byteAt inum (off + i)

/-- A part of a file, and the part behind it. -/
theorem bytes_add (m more : Nat) :
    s.bytes inum off (m + more) = s.bytes inum off m ++ s.bytes inum (off + m) more := by
  simp [bytes, List.range_add, Nat.add_assoc]

/-- Bytes that are the same one by one. -/
theorem bytes_congr (same : ∀ k, off ≤ k → k < off + n → s'.byteAt inum k = s.byteAt inum k) :
    s'.bytes inum off n = s.bytes inum off n :=
  List.map_congr_left fun i member => same _ (Nat.le_add_right ..) (by simpa using member)

/-- The blocks with these bytes of a file have been allocated. -/
def Filled (s : Fs) (inum off n : Nat) : Prop :=
  ∀ k, off ≤ k → k < off + n → (s.dataBlock inum (k / BSIZE)).isSome

/-- The result of a read of `n` bytes, of which `writable` fit behind `dst`. -/
def Reads (s : Fs) (inum off n writable : Nat) (dst : List UInt8) : Except Fault (List UInt8 × Fs) → Prop
  | .ok (dst', s') => dst' = dst ++ s.bytes inum off (min n writable) ∧ s'.Sound ∧ Grows inum s s' ∧
      (s.Filled inum off n → s' = s)
  | .error fault => fault = .panic "balloc: out of blocks" ∧ ¬ s.Filled inum off n

/-- The bytes that a round copies. -/
theorem Reaches.bytes {count m : Nat} (reached : Reaches s inum (dataPath inum (off / BSIZE)) addr count s₁)
    (fits : off % BSIZE + m ≤ BSIZE) (inFile : off + m ≤ MAXFILE * BSIZE) :
    Bytes.slice (s₁.block addr) (off % BSIZE) m = s.bytes inum off m := by
  refine List.map_congr_left fun i member => ?_
  have small : i < m := List.mem_range.mp member
  have size : BSIZE = 1024 := rfl
  have same : (off + i) / BSIZE = off / BSIZE := by
    rw [size] at fits ⊢
    omega
  have place : (off + i) % BSIZE = off % BSIZE + i := by
    rw [size] at fits ⊢
    omega
  rw [← reached.grows.byteAt (by omega), byteAt, same, dataBlock_eq_some.mpr reached.found, place]
  rfl

theorem Filled.here (filled : s.Filled inum off n) (more : 0 < n) :
    descend s.refs .root (dataPath inum (off / BSIZE)) ≠ none := by
  obtain ⟨b, found⟩ := Option.isSome_iff_exists.mp (filled off le_rfl (by omega))
  rw [dataBlock_eq_some.mp found]
  exact Option.some_ne_none _

/-- The loop of `readi`. -/
theorem readLoop_reads (dst : List UInt8) (writable : Nat) {rounds tot : Nat} (sound : s.Sound)
    (valid : (s.icache inum).valid = true) (inside : inum < s.sb.ninodes) (enough : n - tot ≤ rounds)
    (inFile : off + (n - tot) ≤ MAXFILE * BSIZE) :
    Reads s inum off (n - tot) (writable - tot) dst (readLoop inum n writable rounds tot off dst s) := by
  have none {dst : List UInt8} {s : Fs} {off writable : Nat} (sound : s.Sound) :
      Reads s inum off 0 writable dst (.ok (dst, s)) := by
    refine ⟨?_, sound, .refl inum s, fun _ => rfl⟩
    rw [Nat.zero_min]
    exact (List.append_nil dst).symm
  induction rounds generalizing tot off s dst with
  | zero =>
      have done : n - tot = 0 := Nat.le_zero.mp enough
      rw [readLoop, if_neg (by omega), done]
      exact none sound
  | succ rounds ih =>
      rw [readLoop]
      split
      · next more =>
          have found := bmap_tries sound valid inside (bn_small (by omega : off < MAXFILE * BSIZE))
          cases ran : s.bmap inum (off / BSIZE) with
          | error fault =>
              rw [ran] at found
              obtain ⟨full, -, missing⟩ := found
              exact ⟨full, fun filled => filled.here (by omega) missing⟩
          | ok reached =>
              obtain ⟨addr, s₁⟩ := reached
              rw [ran] at found
              have found : Reaches s inum (dataPath inum (off / BSIZE)) addr 3 s₁ := found
              rw [ok_bind]
              simp only
              generalize chunk : min (n - tot) (BSIZE - off % BSIZE) = m
              obtain ⟨positive, fits, le, ends⟩ := round_ends chunk.symm (by omega)
              rw [found.bytes fits (by omega)]
              have same (filled : s.Filled inum off (n - tot)) : s₁ = s := found.stays (filled.here (by omega))
              split
              · next short =>
                -- `either_copyout` has failed
                refine ⟨?_, found.sound, found.grows, same⟩
                have part : s.bytes inum off m = s.bytes inum off (writable - tot) ++
                    s.bytes inum (off + (writable - tot)) (m - (writable - tot)) := by
                  rw [← bytes_add, Nat.add_sub_cancel' (by omega)]
                have length : (s.bytes inum off (writable - tot)).length = writable - tot := by simp [bytes]
                rw [part, List.take_left' length, min_eq_right (by omega)]
              · next copied =>
                have rest := ih (dst ++ s.bytes inum off m) found.sound ((found.grows.valid inum).trans valid)
                  (found.grows.sb ▸ inside) (by omega : n - (tot + m) ≤ rounds)
                  (by omega : off + m + (n - (tot + m)) ≤ MAXFILE * BSIZE)
                have later (filled : s.Filled inum off (n - tot)) : s₁.Filled inum (off + m) (n - (tot + m)) := by
                  rw [same filled]
                  exact fun k above below => filled k (by omega) (by omega)
                cases result : readLoop inum n writable rounds (tot + m) (off + m) (dst ++ s.bytes inum off m) s₁ with
                | error fault =>
                    rw [result] at rest
                    exact ⟨rest.1, fun filled => rest.2 (later filled)⟩
                | ok read =>
                    obtain ⟨dst', s'⟩ := read
                    rw [result] at rest
                    obtain ⟨copy, sound', grows, stays⟩ := rest
                    refine ⟨?_, sound', found.grows.trans grows, fun filled => ?_⟩
                    · have before : s₁.bytes inum (off + m) (min (n - (tot + m)) (writable - (tot + m))) =
                          s.bytes inum (off + m) (min (n - (tot + m)) (writable - (tot + m))) :=
                        bytes_congr fun k above below => found.grows.byteAt (by omega)
                      have all : min (n - tot) (writable - tot) =
                          m + min (n - (tot + m)) (writable - (tot + m)) := by omega
                      rw [copy, before, all, bytes_add, List.append_assoc]
                    · rw [stays (later filled), same filled]
      · next done =>
          have finished : n - tot = 0 := by omega
          rw [finished]
          exact none sound

end Fs

end Riscv2os.Xv7
