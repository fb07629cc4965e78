import Riscv2os.Std.RedoLog
import Riscv2os.Xv7.Log

/-!
# The header block of the log

What `write_head` stores is what `read_head` loads, and the log on the disk is a
redo log in the sense of `Riscv2os.Std.RedoLog`.
-/

namespace Riscv2os.Xv7

open Riscv2os.Std

namespace Logheader

private theorem word_foldl_setWord (block : Nat → Nat) (b : Block) {n : Nat} (small : n ≤ LOGSIZE)
    (index : Nat) :
    ((List.range n).foldl (fun b i => b.setWord (i + 1) (block i)) b).word index =
      if 1 ≤ index ∧ index ≤ n then block (index - 1) % 2 ^ 32 else b.word index := by
  induction n with
  | zero =>
      rw [if_neg (by omega)]
      rfl
  | succ n ih =>
      rw [List.range_succ, List.foldl_append, List.foldl_cons, List.foldl_nil]
      by_cases last : index = n + 1
      · subst last
        have inside : 4 * (n + 1) + 3 < BSIZE := by
          simp only [LOGSIZE, MAXOPBLOCKS, BSIZE] at small ⊢
          omega
        rw [Bytes.word_setWord_self _ _ _ inside]
        simp
      · rw [Bytes.word_setWord_ne _ _ last, ih (by omega)]
        by_cases listed : 1 ≤ index ∧ index ≤ n
        · rw [if_pos listed, if_pos (by omega)]
        · rw [if_neg listed, if_neg (by omega)]

/-- The stored count. -/
theorem headN_store {lh : Logheader} (nonneg : 0 ≤ lh.n) (small : lh.n ≤ LOGSIZE) (b : Block) :
    headN (lh.store b) = lh.n := by
  have head : (lh.store b).word 0 = (lh.n % 2 ^ 32).toNat % 2 ^ 32 := by
    have inside : 4 * 0 + 3 < BSIZE := by norm_num [BSIZE]
    rw [store, word_foldl_setWord _ _ (by omega), if_neg (by omega),
      Bytes.word_setWord_self _ _ _ inside]
  have bound : lh.n ≤ 30 := small
  have word : ((lh.n % 2 ^ 32).toNat % 2 ^ 32 : Nat) = lh.n.toNat := by omega
  rw [headN, Bytes.int, head, word, if_pos (by omega), Int.toNat_of_nonneg nonneg]

/-- The stored block numbers. -/
theorem word_store {lh : Logheader} (small : lh.n ≤ LOGSIZE) (b : Block) {i : Nat}
    (listed : (i : Int) < lh.n) (number : lh.block i < 2 ^ 32) :
    (lh.store b).word (i + 1) = lh.block i := by
  rw [store, word_foldl_setWord _ _ (by omega), if_pos (by omega)]
  simpa using Nat.mod_eq_of_lt number

@[simp] theorem length_blocks (lh : Logheader) : lh.blocks.length = lh.n.toNat := by
  simp [blocks]

theorem mem_blocks {lh : Logheader} {blockno : Nat} :
    blockno ∈ lh.blocks ↔ ∃ i < lh.n.toNat, lh.block i = blockno := by
  simp [blocks]

end Logheader

/-- `log_write` of a block that is already logged absorbs the write; any other
block becomes the last entry of the header, unless the array is full. -/
theorem Log.recordWrite_cases {log : Log} (nonneg : 0 ≤ log.lh.n) (blockno : Nat) :
    (log.recordWrite blockno = .error .outOfBounds ∧ LOGSIZE ≤ log.lh.n) ∨
    ∃ lh, log.recordWrite blockno =
        .ok ({ log with lh := lh }, decide (blockno ∉ log.lh.blocks)) ∧ 0 ≤ lh.n ∧
      lh.blocks = if blockno ∈ log.lh.blocks then log.lh.blocks
        else log.lh.blocks ++ [blockno] := by
  unfold Log.recordWrite
  cases found : (List.range log.lh.n.toNat).find? fun i => log.lh.block i = blockno with
  | some i =>
      have small := List.mem_range.mp (List.mem_of_find?_eq_some found)
      have same : log.lh.block i = blockno := by simpa using List.find?_some found
      by_cases inside : i ≥ LOGSIZE
      · exact .inl ⟨by simp [found, inside], by omega⟩
      · have logged : blockno ∈ log.lh.blocks := Logheader.mem_blocks.mpr ⟨i, small, same⟩
        have unchanged : Function.update log.lh.block i blockno = log.lh.block := by
          rw [← same, Function.update_eq_self]
        have notLast : i ≠ log.lh.n.toNat := by omega
        refine .inr ⟨log.lh, ?_, nonneg, by rw [if_pos logged]⟩
        simp [found, unchanged, inside, notLast, logged]
  | none =>
      have fresh : blockno ∉ log.lh.blocks := by
        intro logged
        obtain ⟨i, small, same⟩ := Logheader.mem_blocks.mp logged
        have := List.find?_eq_none.mp found i (List.mem_range.mpr small)
        simp [same] at this
      by_cases inside : log.lh.n.toNat ≥ LOGSIZE
      · exact .inl ⟨by simp [found, inside], by omega⟩
      · let lh : Logheader :=
          ⟨log.lh.n + 1, Function.update log.lh.block log.lh.n.toNat blockno⟩
        refine .inr ⟨lh, by simp [found, inside, fresh, lh], by simp only [lh]; omega, ?_⟩
        have next : (log.lh.n + 1).toNat = log.lh.n.toNat + 1 := by omega
        have old : (List.range log.lh.n.toNat).map lh.block = log.lh.blocks := by
          refine List.map_congr_left fun i member => ?_
          exact Function.update_of_ne (ne_of_lt (List.mem_range.mp member)) _ _
        rw [if_neg fresh, Logheader.blocks]
        simp only [lh, next, List.range_succ, List.map_append, List.map_cons, List.map_nil,
          Function.update_self] at old ⊢
        rw [old]

/-- With room in the array `log_write` records the block. -/
theorem Log.recordWrite_ok {log : Log} (nonneg : 0 ≤ log.lh.n) (room : log.lh.n < LOGSIZE)
    (blockno : Nat) :
    ∃ lh, log.recordWrite blockno =
        .ok ({ log with lh := lh }, decide (blockno ∉ log.lh.blocks)) ∧ 0 ≤ lh.n ∧
      lh.blocks = if blockno ∈ log.lh.blocks then log.lh.blocks
        else log.lh.blocks ++ [blockno] :=
  (recordWrite_cases nonneg blockno).resolve_left fun full => by omega

/-- The log of a disk as a redo log. The blocks of a disk with another number
and the blocks outside `[start, start + size)` are its home blocks. -/
def redoLog (dev start size : Nat) : RedoLog BlockAddr Block where
  header := ⟨dev, start⟩
  slot i := ⟨dev, start + i + 1⟩
  capacity := size - 1
  count b := (Logheader.headN b).toNat
  entry b i := ⟨dev, b.word (i + 1)⟩
  slot_ne_header i := by simp; omega
  slot_injective i j same := by
    simp only [BlockAddr.mk.injEq, true_and] at same
    omega

section Fields

variable (dev start size : Nat)

@[simp] theorem redoLog_header : (redoLog dev start size).header = ⟨dev, start⟩ := rfl
@[simp] theorem redoLog_capacity : (redoLog dev start size).capacity = size - 1 := rfl
@[simp] theorem redoLog_count (b : Block) :
    (redoLog dev start size).count b = (Logheader.headN b).toNat := rfl
@[simp] theorem redoLog_slot (i : Nat) :
    (redoLog dev start size).slot i = ⟨dev, start + i + 1⟩ := rfl
@[simp] theorem redoLog_entry (b : Block) (i : Nat) :
    (redoLog dev start size).entry b i = ⟨dev, b.word (i + 1)⟩ := rfl

end Fields

/-- A block is at home exactly outside the blocks of the log. -/
theorem redoLog_isHome {dev start size : Nat} (positive : 0 < size) {a : BlockAddr} :
    (redoLog dev start size).IsHome a ↔
      ¬ (a.dev = dev ∧ start ≤ a.blockno ∧ a.blockno < start + size) := by
  obtain ⟨disk, blockno⟩ := a
  simp only [RedoLog.IsHome, redoLog, ne_eq, BlockAddr.mk.injEq]
  constructor
  · rintro ⟨notHeader, notSlot⟩ ⟨same, low, high⟩
    by_cases first : blockno = start
    · exact notHeader ⟨same, first⟩
    · exact notSlot (blockno - start - 1) (by omega) ⟨same, by omega⟩
  · intro outside
    exact ⟨fun ⟨same, equal⟩ => outside ⟨same, by omega, by omega⟩,
      fun i small ⟨same, equal⟩ => outside ⟨same, by omega, by omega⟩⟩

end Riscv2os.Xv7
