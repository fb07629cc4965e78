import Riscv2os.Std.RiscV

/-!
# The disassembly of a section

`rv_dasm_block` of `src/vm/riscv/riscv.c`. The pointer `ir` counts words from the start of the block, and the
memory goes on behind the block. What `rv_dasm_inst` makes of a word does not matter for the loops and is left
out of the lines.
-/

namespace Riscv2os.Emulator

open Riscv2os.Std

/-- A line that is printed. -/
inductive Line where
  /-- `...` -/
  | dots
  /-- The address and the word, before its disassembly. -/
  | word (pc inst : BitVec 32)
deriving DecidableEq, Repr

namespace Line

/-- The address and the word of a line. -/
def printed : Line → Option (BitVec 32 × BitVec 32)
  | dots => none
  | word pc inst => some (pc, inst)

end Line

section Loops

variable (mem : Nat → UInt8)

/-- `*ir`. -/
def wordAt (ir : Nat) : BitVec 32 := BitVec.ofNat 32 (RiscV.littleEndian 4 fun k => mem (4 * ir + k))

/-- `while (*ir == 0) ir++;` for a number of rounds, with the words that are read. -/
def skipZeros : Nat → Nat → List Nat → Option (Nat × List Nat)
  | 0, _, _ => none
  | rounds + 1, ir, reads =>
      if wordAt mem ir = 0 then skipZeros rounds (ir + 1) (reads ++ [ir]) else some (ir, reads ++ [ir])

variable (addr : BitVec 32) (size : Int)

/-- The loop of `rv_dasm_block` for a number of rounds. -/
def dasmLoop : Nat → Nat → List Nat → List Line → Option (List Nat × List Line)
  | 0, _, _, _ => none
  | rounds + 1, ir, reads, out =>
      if 4 * (ir : Int) < size then
        if wordAt mem ir = 0 then do
          let (ir, reads) ← skipZeros mem rounds ir (reads ++ [ir])
          -- `ir--` here, and `ir++` at the end of the round
          dasmLoop rounds (ir - 1 + 1) reads (out ++ [.dots])
        else
          dasmLoop rounds (ir + 1) (reads ++ [ir])
            (out ++ [.word (addr + BitVec.ofNat 32 (4 * ir)) (wordAt mem ir)])
      else some (reads, out)

/-- `rv_dasm_block`, with the words that are read and the lines that are printed. -/
def rvDasmBlock (rounds : Nat) : Option (List Nat × List Line) := dasmLoop mem addr size rounds 0 [] []

/-- The words from a place on that are not zero, each with its own address. -/
def nonzeroWords (ir : Nat) : Nat → List (BitVec 32 × BitVec 32)
  | 0 => []
  | count + 1 =>
      (if wordAt mem ir = 0 then [] else [(addr + BitVec.ofNat 32 (4 * ir), wordAt mem ir)]) ++
        nonzeroWords (ir + 1) count

/-- The loop ends, reads words inside the block only, and prints each word that is not zero once. -/
def StaysInside : Prop := ∃ rounds reads out, rvDasmBlock mem addr size rounds = some (reads, out) ∧
  (∀ ir ∈ reads, 4 * (ir : Int) + 4 ≤ size) ∧
  out.filterMap Line.printed = nonzeroWords mem addr 0 (size.toNat / 4)

end Loops

section Ends

variable {mem : Nat → UInt8} {addr : BitVec 32} {size : Int} {last : Nat}

/-- Zero words end before a word that is not zero. -/
theorem skipZeros_of_nonzero (nonzero : wordAt mem last ≠ 0) {rounds ir : Nat} (reads : List Nat)
    (before : ir ≤ last) (enough : last - ir < rounds) :
    ∃ ir' read, skipZeros mem rounds ir reads = some (ir', reads ++ read) ∧ ir ≤ ir' ∧ ir' ≤ last ∧
      (∀ k ∈ read, k ≤ last) ∧ wordAt mem ir' ≠ 0 ∧ ∀ k, ir ≤ k → k < ir' → wordAt mem k = 0 := by
  induction rounds generalizing ir reads with
  | zero => omega
  | succ rounds ih =>
      unfold skipZeros
      by_cases zero : wordAt mem ir = 0
      · rw [if_pos zero]
        have further : ir ≠ last := fun same => nonzero (same ▸ zero)
        obtain ⟨ir', read, ran, above, below, inside, found, zeros⟩ :=
          ih (reads ++ [ir]) (show ir + 1 ≤ last by omega) (by omega)
        refine ⟨ir', ir :: read, ?_, by omega, below, ?_, found, ?_⟩
        · rw [ran, List.append_assoc]
          rfl
        · simpa using ⟨before, inside⟩
        · intro k low high
          obtain rfl | later := low.eq_or_lt
          · exact zero
          · exact zeros k later high
      · rw [if_neg zero]
        refine ⟨ir, [ir], rfl, le_rfl, before, by simpa using before, zero, ?_⟩
        intro k low high
        omega

/-- Zero words add nothing. -/
theorem nonzeroWords_skip {count : Nat} {ir ir' : Nat} (forward : ir ≤ ir') (inside : ir' ≤ ir + count)
    (zeros : ∀ k, ir ≤ k → k < ir' → wordAt mem k = 0) :
    nonzeroWords mem addr ir count = nonzeroWords mem addr ir' (ir + count - ir') := by
  induction count generalizing ir with
  | zero =>
      obtain rfl : ir = ir' := by omega
      rw [Nat.add_sub_cancel_left]
  | succ count ih =>
      obtain rfl | skips := forward.eq_or_lt
      · rw [Nat.add_sub_cancel_left]
      · have count_eq : ir + 1 + count - ir' = ir + (count + 1) - ir' := by omega
        rw [nonzeroWords, if_pos (zeros ir le_rfl skips), List.nil_append, ← count_eq]
        exact ih skips (by omega) fun k low high => zeros k (by omega) high

/-- A block whose last word is not zero is read to its end and no further. -/
theorem dasmLoop_of_nonzero (addr : BitVec 32) (whole : size = 4 * ((last : Int) + 1))
    (nonzero : wordAt mem last ≠ 0)
    {rounds ir : Nat} (reads : List Nat) (out : List Line) (before : ir ≤ last + 1)
    (enough : last + 1 - ir < rounds) :
    ∃ read lines, dasmLoop mem addr size rounds ir reads out = some (reads ++ read, out ++ lines) ∧
      (∀ k ∈ read, k ≤ last) ∧ lines.filterMap Line.printed = nonzeroWords mem addr ir (last + 1 - ir) := by
  induction rounds generalizing ir reads out with
  | zero => omega
  | succ rounds ih =>
      unfold dasmLoop
      by_cases inside : 4 * (ir : Int) < size
      · rw [if_pos inside]
        have room : ir ≤ last := by omega
        by_cases zero : wordAt mem ir = 0
        · rw [if_pos zero]
          obtain ⟨ir', skipped, ran, above, below, inside', found, zeros⟩ :=
            skipZeros_of_nonzero nonzero (reads ++ [ir]) room (show last - ir < rounds by omega)
          have forward : ir ≠ ir' := fun same => found (same ▸ zero)
          obtain ⟨read, lines, rest, inside'', printed⟩ := ih (reads ++ [ir] ++ skipped) (out ++ [.dots])
            (show ir' ≤ last + 1 by omega) (by omega)
          refine ⟨ir :: skipped ++ read, .dots :: lines, ?_, ?_, ?_⟩
          · rw [ran]
            show dasmLoop mem addr size rounds (ir' - 1 + 1) _ _ = _
            rw [Nat.sub_add_cancel (by omega), rest]
            simp
          · intro k member
            rw [List.cons_append, List.mem_cons, List.mem_append] at member
            rcases member with rfl | skip | later
            exacts [room, inside' k skip, inside'' k later]
          · rw [nonzeroWords_skip above (show ir' ≤ ir + (last + 1 - ir) by omega) zeros,
              Nat.add_sub_cancel' (by omega), ← printed]
            rfl
        · rw [if_neg zero]
          obtain ⟨read, lines, ran, inside', printed⟩ := ih (reads ++ [ir])
            (out ++ [.word (addr + BitVec.ofNat 32 (4 * ir)) (wordAt mem ir)])
            (show ir + 1 ≤ last + 1 by omega) (by omega)
          refine ⟨ir :: read, .word (addr + BitVec.ofNat 32 (4 * ir)) (wordAt mem ir) :: lines, ?_, ?_, ?_⟩
          · rw [ran, List.append_assoc, List.append_assoc]
            rfl
          · simpa using ⟨room, inside'⟩
          · have more : last + 1 - ir = last + 1 - (ir + 1) + 1 := by omega
            rw [more, nonzeroWords, if_neg zero, ← printed]
            rfl
      · rw [if_neg inside]
        refine ⟨[], [], by simp, by simp, ?_⟩
        have done : last + 1 - ir = 0 := by omega
        rw [done]
        rfl

/-- What skipping zero words reads: all words up to the first that is not zero. -/
theorem skipZeros_reads {rounds ir ir' : Nat} {reads reads' : List Nat}
    (ran : skipZeros mem rounds ir reads = some (ir', reads')) :
    ir ≤ ir' ∧ wordAt mem ir' ≠ 0 ∧ reads ⊆ reads' ∧ ∀ k, ir ≤ k → k ≤ ir' → k ∈ reads' := by
  induction rounds generalizing ir reads with
  | zero => cases ran
  | succ rounds ih =>
      unfold skipZeros at ran
      by_cases zero : wordAt mem ir = 0
      · rw [if_pos zero] at ran
        obtain ⟨above, found, kept, read⟩ := ih ran
        refine ⟨by omega, found, fun k member => kept (List.mem_append_left _ member), fun k low high => ?_⟩
        obtain rfl | later := low.eq_or_lt
        · exact kept (by simp)
        · exact read k later high
      · rw [if_neg zero] at ran
        cases ran
        refine ⟨le_rfl, zero, by simp, fun k low high => ?_⟩
        obtain rfl : k = ir' := by omega
        simp

/-- A loop that ends has read the last word that starts in the block, and the next one too if that one is
zero. -/
theorem dasmLoop_reads {rounds ir : Nat} {reads reads' : List Nat} {out out' : List Line}
    (ran : dasmLoop mem addr size rounds ir reads out = some (reads', out')) (first : 4 * (last : Int) < size)
    (behind : size ≤ 4 * (last : Int) + 4) :
    reads ⊆ reads' ∧ (ir ≤ last → last ∈ reads' ∧ (wordAt mem last = 0 → last + 1 ∈ reads')) := by
  induction rounds generalizing ir reads out with
  | zero => cases ran
  | succ rounds ih =>
      unfold dasmLoop at ran
      by_cases inside : 4 * (ir : Int) < size
      · rw [if_pos inside] at ran
        have room : ir ≤ last := by omega
        by_cases zero : wordAt mem ir = 0
        · rw [if_pos zero] at ran
          obtain ⟨⟨ir', skipped⟩, skips, rest⟩ := Option.bind_eq_some_iff.mp ran
          obtain ⟨above, found, kept, read⟩ := skipZeros_reads skips
          obtain ⟨kept', later⟩ := ih rest
          refine ⟨fun k member => kept' (kept (List.mem_append_left _ member)), fun _ => ?_⟩
          have forward : ir ≠ ir' := fun same => found (same ▸ zero)
          by_cases more : ir' ≤ last
          · exact later (by omega)
          · exact ⟨kept' (read last room (by omega)), fun _ => kept' (read (last + 1) (by omega) (by omega))⟩
        · rw [if_neg zero] at ran
          obtain ⟨kept, later⟩ := ih ran
          refine ⟨fun k member => kept (List.mem_append_left _ member), fun _ => ?_⟩
          by_cases more : ir + 1 ≤ last
          · exact later more
          · obtain rfl : ir = last := by omega
            exact ⟨kept (by simp), fun same => absurd same zero⟩
      · rw [if_neg inside] at ran
        cases ran
        exact ⟨List.Subset.refl _, fun room => absurd first (by omega)⟩

/-- A block that is not empty is read to its end only if it consists of words and the last one is not zero. -/
theorem StaysInside.ends (stays : StaysInside mem addr size) (positive : 0 < size) :
    4 ∣ size ∧ wordAt mem (size.toNat / 4 - 1) ≠ 0 := by
  obtain ⟨rounds, reads, out, ran, inside, -⟩ := stays
  have first : 4 * (((size.toNat - 1) / 4 : Nat) : Int) < size := by omega
  have behind : size ≤ 4 * (((size.toNat - 1) / 4 : Nat) : Int) + 4 := by omega
  obtain ⟨-, read⟩ := dasmLoop_reads ran first behind
  obtain ⟨lastRead, nextRead⟩ := read (Nat.zero_le _)
  have whole := inside _ lastRead
  have place : (size.toNat - 1) / 4 = size.toNat / 4 - 1 := by omega
  refine ⟨by omega, fun zero => ?_⟩
  have next := inside _ (nextRead (place ▸ zero))
  omega

/-- A block of words, the last of which is not zero, and an empty block. -/
theorem staysInside_of (good : size ≤ 0 ∨ 4 ∣ size ∧ wordAt mem (size.toNat / 4 - 1) ≠ 0) :
    StaysInside mem addr size := by
  by_cases empty : size ≤ 0
  · refine ⟨1, [], [], if_neg (by simpa using empty), by simp, ?_⟩
    have none : size.toNat / 4 = 0 := by omega
    rw [none]
    rfl
  · obtain ⟨whole, nonzero⟩ := good.resolve_left empty
    have count : size.toNat / 4 - 1 + 1 = size.toNat / 4 := by omega
    have exact : size = 4 * (((size.toNat / 4 - 1 : Nat) : Int) + 1) := by omega
    obtain ⟨read, lines, ran, inside, printed⟩ := dasmLoop_of_nonzero addr exact nonzero [] []
      (Nat.zero_le _) (show size.toNat / 4 - 1 + 1 - 0 < size.toNat / 4 + 1 by omega)
    refine ⟨_, _, _, ran, ?_, ?_⟩
    · intro ir member
      have := inside ir member
      omega
    · rw [← count]
      exact printed

end Ends

/-- The disassembly of a block stays inside it exactly if the block is empty, or consists of words of which the
last one is not zero. -/
theorem rvDasmBlock_inside_iff (mem : Nat → UInt8) (addr : BitVec 32) (size : Int) :
    StaysInside mem addr size ↔ size ≤ 0 ∨ 4 ∣ size ∧ wordAt mem (size.toNat / 4 - 1) ≠ 0 := by
  refine ⟨fun stays => ?_, staysInside_of⟩
  by_cases empty : size ≤ 0
  · exact .inl empty
  · exact .inr (stays.ends (not_le.mp empty))

/-- A `nop` and a zero word behind it. -/
theorem rvDasmBlock_outside : ¬ StaysInside (fun k => if k = 0 then 0x13 else 0) 0 8 := fun stays =>
  (stays.ends (by decide)).2 rfl

end Riscv2os.Emulator
