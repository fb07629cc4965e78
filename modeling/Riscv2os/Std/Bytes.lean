import Mathlib.Tactic

/-!
# Byte arrays and their little-endian words

`Bytes n` is an array of exactly `n` bytes. The 32-bit words of a C program
that reads such an array through an `uint *` are its groups of four bytes, least
significant byte first; `word` and `setWord` are the read and the write of one
such word, and the lemmas below are their laws. `slice` and `splice` read and store a
run of bytes, `setWords` stores a run of words, and `bit` and `setBit` read and store a bit,
the least significant one of a byte first.
-/

namespace Riscv2os.Std

/-- An array of exactly `n` bytes. -/
abbrev Bytes (n : Nat) := Fin n → UInt8

namespace Bytes

variable {n : Nat}

/-- The byte at an index, zero outside the array. -/
def byte (bytes : Bytes n) (index : Nat) : UInt8 :=
  if inside : index < n then bytes ⟨index, inside⟩ else 0

/-- The 32-bit word at a word index. -/
def word (bytes : Bytes n) (index : Nat) : Nat :=
  (bytes.byte (4 * index)).toNat + 256 * (bytes.byte (4 * index + 1)).toNat +
    65536 * (bytes.byte (4 * index + 2)).toNat + 16777216 * (bytes.byte (4 * index + 3)).toNat

/-- The word at a word index as a signed number. -/
def int (bytes : Bytes n) (index : Nat) : Int :=
  if bytes.word index < 2147483648 then bytes.word index else bytes.word index - 4294967296

/-- Store the low 32 bits of `value` at a word index. -/
def setWord (bytes : Bytes n) (index value : Nat) : Bytes n := fun place =>
  if place.val / 4 = index then UInt8.ofNat (value / 256 ^ (place.val % 4)) else bytes place

theorem byte_eq (bytes : Bytes n) {index : Nat} (inside : index < n) :
    bytes.byte index = bytes ⟨index, inside⟩ := dif_pos inside

theorem word_lt (bytes : Bytes n) (index : Nat) : bytes.word index < 2 ^ 32 := by
  have h0 := (bytes.byte (4 * index)).toNat_lt
  have h1 := (bytes.byte (4 * index + 1)).toNat_lt
  have h2 := (bytes.byte (4 * index + 2)).toNat_lt
  have h3 := (bytes.byte (4 * index + 3)).toNat_lt
  simp only [word]
  omega

private theorem byte_setWord (bytes : Bytes n) (index value place : Nat) (inside : place < n) :
    (bytes.setWord index value).byte place =
      if place / 4 = index then UInt8.ofNat (value / 256 ^ (place % 4)) else bytes.byte place := by
  rw [byte_eq _ inside, byte_eq _ inside]
  rfl

/-- Reading back a stored word gives its low 32 bits. -/
@[simp] theorem word_setWord_self (bytes : Bytes n) (index value : Nat)
    (inside : 4 * index + 3 < n) : (bytes.setWord index value).word index = value % 2 ^ 32 := by
  have lane : ∀ k < 4, ((bytes.setWord index value).byte (4 * index + k)).toNat =
      value / 256 ^ k % 256 := by
    intro k small
    rw [byte_setWord _ _ _ _ (by omega), if_pos (by omega)]
    have : (4 * index + k) % 4 = k := by omega
    simp [this]
  have h0 := lane 0 (by omega)
  have h1 := lane 1 (by omega)
  have h2 := lane 2 (by omega)
  have h3 := lane 3 (by omega)
  simp only [word, Nat.add_zero] at h0 ⊢
  rw [h0, h1, h2, h3]
  norm_num
  omega

/-- Storing a word leaves the others. -/
@[simp] theorem word_setWord_ne (bytes : Bytes n) {index other : Nat} (value : Nat)
    (apart : other ≠ index) : (bytes.setWord index value).word other = bytes.word other := by
  have lane : ∀ k < 4, (bytes.setWord index value).byte (4 * other + k) =
      bytes.byte (4 * other + k) := by
    intro k small
    by_cases inside : 4 * other + k < n
    · rw [byte_setWord _ _ _ _ inside, if_neg (by omega)]
    · simp [byte, inside]
  have h0 := lane 0 (by omega)
  have h1 := lane 1 (by omega)
  have h2 := lane 2 (by omega)
  have h3 := lane 3 (by omega)
  simp only [word, Nat.add_zero] at h0 ⊢
  rw [h0, h1, h2, h3]

/-- Store the low 32 bits of a run of words. -/
def setWords (bytes : Bytes n) (start count : Nat) (values : Nat → Nat) : Bytes n := fun place =>
  if start ≤ place.val / 4 ∧ place.val / 4 < start + count then
    UInt8.ofNat (values (place.val / 4 - start) / 256 ^ (place.val % 4))
  else bytes place

/-- Every word of a run reads back as the word of one store would. -/
theorem word_setWords (bytes : Bytes n) {start count index : Nat} (values : Nat → Nat)
    (inside : 4 * index + 3 < n) : (bytes.setWords start count values).word index =
      if start ≤ index ∧ index < start + count then values (index - start) % 2 ^ 32
      else bytes.word index := by
  have lane : ∀ k < 4, (bytes.setWords start count values).byte (4 * index + k) =
      if start ≤ index ∧ index < start + count then
        (bytes.setWord index (values (index - start))).byte (4 * index + k)
      else bytes.byte (4 * index + k) := by
    intro k small
    have group : (4 * index + k) / 4 = index := by omega
    have place : (4 * index + k) < n := by omega
    rw [byte_setWord _ _ _ _ place, if_pos group, byte_eq _ place, byte_eq _ place]
    simp only [setWords, group]
  split
  · next within =>
    simp only [if_pos within] at lane
    rw [← word_setWord_self bytes index _ inside]
    have h0 := lane 0 (by omega)
    simp only [Nat.add_zero] at h0
    simp only [word, h0, lane 1 (by omega), lane 2 (by omega), lane 3 (by omega)]
  · next outside =>
    simp only [if_neg outside] at lane
    have h0 := lane 0 (by omega)
    simp only [Nat.add_zero] at h0
    simp only [word, h0, lane 1 (by omega), lane 2 (by omega), lane 3 (by omega)]

/-- A bit of the array. -/
def bit (bytes : Bytes n) (i : Nat) : Bool := (bytes.byte (i / 8)).toBitVec.getLsbD (i % 8)

/-- Set or clear a bit. -/
def setBit (bytes : Bytes n) (i : Nat) (value : Bool) : Bytes n := fun place =>
  if place.val = i / 8 then
    .ofBitVec (if value then (bytes place).toBitVec ||| BitVec.twoPow 8 (i % 8)
      else (bytes place).toBitVec &&& ~~~ BitVec.twoPow 8 (i % 8))
  else bytes place

theorem bit_setBit (bytes : Bytes n) {i : Nat} (value : Bool) (inside : i / 8 < n) (j : Nat) :
    (bytes.setBit i value).bit j = if j = i then value else bytes.bit j := by
  unfold bit
  by_cases here : j / 8 = i / 8
  · rw [here, byte_eq _ inside, byte_eq _ inside]
    have small : j % 8 < 8 := Nat.mod_lt _ (by omega)
    have same : j = i ↔ i % 8 = j % 8 := by omega
    cases value <;> simp only [setBit, same, if_true, if_false, Bool.false_eq_true,
      BitVec.getLsbD_or, BitVec.getLsbD_and, BitVec.getLsbD_not, BitVec.getLsbD_twoPow]
    · by_cases equal : i % 8 = j % 8 <;> simp [equal, small]
    · by_cases equal : i % 8 = j % 8 <;> simp [equal, small]
  · have apart : j ≠ i := by
      rintro rfl
      exact here rfl
    rw [if_neg apart]
    congr 2
    by_cases place : j / 8 < n
    · rw [byte_eq _ place, byte_eq _ place]
      exact if_neg here
    · simp [byte, place]

/-- `count` bytes from an index on, zeros outside the array. -/
def slice (bytes : Bytes n) (start count : Nat) : List UInt8 :=
  (List.range count).map fun i => bytes.byte (start + i)

/-- Store a list of bytes from an index on. What does not fit is lost. -/
def splice (bytes : Bytes n) (start : Nat) (new : List UInt8) : Bytes n := fun place =>
  if start ≤ place.val ∧ place.val < start + new.length then new.getD (place.val - start) 0
  else bytes place

@[simp] theorem length_slice (bytes : Bytes n) (start count : Nat) :
    (bytes.slice start count).length = count := by simp [slice]

theorem slice_ext {n' : Nat} {bytes : Bytes n} {bytes' : Bytes n'} {start start' count : Nat}
    (same : ∀ i < count, bytes.byte (start + i) = bytes'.byte (start' + i)) :
    bytes.slice start count = bytes'.slice start' count :=
  List.map_congr_left fun i member => same i (List.mem_range.mp member)

theorem slice_add (bytes : Bytes n) (start count more : Nat) :
    bytes.slice start (count + more) = bytes.slice start count ++ bytes.slice (start + count) more := by
  simp [slice, List.range_add, Nat.add_assoc]

theorem drop_slice (bytes : Bytes n) (start count k : Nat) :
    (bytes.slice start count).drop k = bytes.slice (start + k) (count - k) := by
  by_cases inside : k ≤ count
  · conv_lhs => rw [← Nat.add_sub_cancel' inside, slice_add]
    rw [List.drop_append_of_le_length (by simp), List.drop_of_length_le (by simp), List.nil_append]
  · rw [List.drop_of_length_le (by simp; omega), Nat.sub_eq_zero_of_le (by omega)]
    rfl

theorem take_slice (bytes : Bytes n) (start : Nat) {count k : Nat} (inside : k ≤ count) :
    (bytes.slice start count).take k = bytes.slice start k := by
  rw [← Nat.add_sub_cancel' inside, slice_add, List.take_append_of_le_length (by simp),
    List.take_of_length_le (by simp)]

theorem byte_splice (bytes : Bytes n) (start place : Nat) (new : List UInt8)
    (inside : place < n) : (bytes.splice start new).byte place =
      if start ≤ place ∧ place < start + new.length then new.getD (place - start) 0
      else bytes.byte place := by
  rw [byte_eq _ inside, byte_eq _ inside]
  rfl

/-- Reading back what was stored. -/
theorem slice_splice_self (bytes : Bytes n) {start : Nat} {new : List UInt8}
    (inside : start + new.length ≤ n) : (bytes.splice start new).slice start new.length = new := by
  refine List.ext_getElem (by simp) fun i small small' => ?_
  rw [length_slice] at small
  simp only [slice, List.getElem_map, List.getElem_range]
  rw [byte_splice _ _ _ _ (by omega), if_pos (by omega), Nat.add_sub_cancel_left]
  simp [small']

/-- A store leaves the bytes before and behind it. -/
theorem slice_splice_apart (bytes : Bytes n) {start other count : Nat} {new : List UInt8}
    (apart : other + count ≤ start ∨ start + new.length ≤ other) :
    (bytes.splice start new).slice other count = bytes.slice other count := by
  refine slice_ext fun i small => ?_
  by_cases inside : other + i < n
  · rw [byte_splice _ _ _ _ inside, if_neg (by omega)]
  · simp [byte, inside]

end Bytes

end Riscv2os.Std
