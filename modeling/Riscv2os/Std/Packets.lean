import Mathlib.Data.BitVec
import Mathlib.Tactic

/-!
# Fields of packed structures, and the Internet checksum

A packet header is a packed structure: its fields are runs of bytes, the least significant
byte first. `word16` and `word32` put a field together and `bytes16` and `bytes32` take it
apart. The checksum is the one's complement of the sum of the 16-bit words with the carries
added back.
-/

namespace Riscv2os.Std

namespace Packet

/-- The field of two bytes. -/
def word16 (b0 b1 : UInt8) : BitVec 16 := BitVec.ofNat 16 (b0.toNat + 256 * b1.toNat)

/-- The field of four bytes. -/
def word32 (b0 b1 b2 b3 : UInt8) : BitVec 32 :=
  BitVec.ofNat 32 (b0.toNat + 256 * b1.toNat + 65536 * b2.toNat + 16777216 * b3.toNat)

/-- Byte `i` of a field. -/
def byteOf {width : Nat} (value : BitVec width) (i : Nat) : UInt8 :=
  UInt8.ofNat (value.toNat / 256 ^ i)

def bytes16 (value : BitVec 16) : List UInt8 := [byteOf value 0, byteOf value 1]

def bytes32 (value : BitVec 32) : List UInt8 :=
  [byteOf value 0, byteOf value 1, byteOf value 2, byteOf value 3]

theorem toNat_word16 (b0 b1 : UInt8) : (word16 b0 b1).toNat = b0.toNat + 256 * b1.toNat := by
  have h0 := b0.toNat_lt
  have h1 := b1.toNat_lt
  rw [word16, BitVec.toNat_ofNat]
  omega

theorem toNat_byteOf {width : Nat} (value : BitVec width) (i : Nat) :
    (byteOf value i).toNat = value.toNat / 256 ^ i % 256 := by simp [byteOf]

@[simp] theorem word16_bytes (value : BitVec 16) :
    word16 (byteOf value 0) (byteOf value 1) = value := by
  refine BitVec.eq_of_toNat_eq ?_
  rw [toNat_word16, toNat_byteOf, toNat_byteOf]
  omega

@[simp] theorem word32_bytes (value : BitVec 32) :
    word32 (byteOf value 0) (byteOf value 1) (byteOf value 2) (byteOf value 3) = value := by
  refine BitVec.eq_of_toNat_eq ?_
  simp only [word32, BitVec.toNat_ofNat, toNat_byteOf]
  omega

end Packet

namespace Checksum

/-- Add the carries of a sum of 16-bit words back into its low 16 bits. -/
def fold (sum : Nat) : Nat :=
  let sum := sum % 65536 + sum / 65536
  (sum + sum / 65536) % 65536

/-- The checksum of words with this sum. -/
def checksum (sum : Nat) : Nat := 65535 - fold sum

/-- The folded sum is congruent to the sum, and zero only for the sum zero. -/
theorem fold_spec {sum : Nat} (small : sum < 2 ^ 32) :
    fold sum ≤ 65535 ∧ (∃ k, sum = 65535 * k + fold sum) ∧ (fold sum = 0 → sum = 0) := by
  simp only [fold]
  obtain ⟨a, b, small', smaller, rfl⟩ : ∃ a b, a < 65536 ∧ b < 65536 ∧ sum = 65536 * a + b :=
    ⟨sum / 65536, sum % 65536, by omega, by omega, by omega⟩
  have low : (65536 * a + b) % 65536 = b := by omega
  have high : (65536 * a + b) / 65536 = a := by omega
  rw [low, high]
  by_cases carry : b + a < 65536
  · have folded : (b + a + (b + a) / 65536) % 65536 = b + a := by omega
    rw [folded]
    exact ⟨by omega, ⟨a, by omega⟩, by omega⟩
  · have folded : (b + a + (b + a) / 65536) % 65536 = b + a - 65535 := by omega
    rw [folded]
    exact ⟨by omega, ⟨a + 1, by omega⟩, by omega⟩

/-- Words together with their checksum have the checksum zero. -/
theorem checksum_add {sum : Nat} (small : sum < 2 ^ 32 - 65536) :
    checksum (sum + checksum sum) = 0 := by
  obtain ⟨bound, ⟨k, congruent⟩, zero⟩ := @fold_spec sum (by omega)
  obtain ⟨bound', ⟨k', congruent'⟩, zero'⟩ :=
    @fold_spec (sum + checksum sum) (by unfold checksum; omega)
  have total : sum + checksum sum = 65535 * (k + 1) := by
    unfold checksum
    omega
  rw [checksum]
  omega

end Checksum

end Riscv2os.Std
