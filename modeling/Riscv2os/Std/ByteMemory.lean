import Mathlib.Tactic

/-!
# Numbers in a memory of bytes

A memory is a byte at every address. Numbers of any width are stored in it with the least
significant byte first, and ranges are filled with one byte.
-/

namespace Riscv2os.Std

/-- A memory of bytes. -/
abbrev ByteMemory := Nat → UInt8

namespace ByteMemory

variable {m m' : ByteMemory} {n k a b v : Nat}

/-- The number in `n` bytes from an address on. -/
def load (m : ByteMemory) : Nat → Nat → Nat
  | 0, _ => 0
  | n + 1, a => (m a).toNat + 256 * load m n (a + 1)

/-- Store a number in `n` bytes from an address on. -/
def store (m : ByteMemory) : Nat → Nat → Nat → ByteMemory
  | 0, _, _ => m
  | n + 1, a, v => Function.update (store m n (a + 1) (v / 256)) a (UInt8.ofNat v)

/-- Fill `n` bytes with one value. -/
def fill (m : ByteMemory) (a n : Nat) (byte : UInt8) : ByteMemory := fun b =>
  if a ≤ b ∧ b < a + n then byte else m b

/-- A number is a matter of its own bytes. -/
theorem load_congr (same : ∀ b, a ≤ b → b < a + n → m' b = m b) : m'.load n a = m.load n a := by
  induction n generalizing a with
  | zero => rfl
  | succ n ih =>
      rw [load, load, same a le_rfl (by omega), ih fun b low high => same b (by omega) (by omega)]

theorem store_apart (apart : b < a ∨ a + n ≤ b) : m.store n a v b = m b := by
  induction n generalizing a v with
  | zero => rfl
  | succ n ih =>
      rw [store, Function.update_of_ne (by omega), ih (by omega)]

theorem fill_apart {byte : UInt8} (apart : b < a ∨ a + n ≤ b) : m.fill a n byte b = m b :=
  if_neg (by omega)

/-- What was stored is loaded back, as far as it fits. -/
theorem load_store_self (m : ByteMemory) (n a v : Nat) : (m.store n a v).load n a = v % 256 ^ n := by
  induction n generalizing a v with
  | zero => simp [load, Nat.mod_one]
  | succ n ih =>
      have rest : (m.store (n + 1) a v).load n (a + 1) = (m.store n (a + 1) (v / 256)).load n (a + 1) :=
        load_congr fun b low _ => Function.update_of_ne (by omega) ..
      have low : (m.store (n + 1) a v a).toNat = v % 256 := by
        rw [store, Function.update_self]
        exact UInt8.toNat_ofNat
      rw [load, low, rest, ih, pow_succ', Nat.mod_mul]

/-- Only what fits is stored. -/
theorem store_congr {v' : Nat} (same : v % 256 ^ n = v' % 256 ^ n) : m.store n a v = m.store n a v' := by
  induction n generalizing a v v' with
  | zero => rfl
  | succ n ih =>
      rw [pow_succ', Nat.mod_mul, Nat.mod_mul] at same
      have low : v % 256 = v' % 256 := by omega
      have high : v / 256 % 256 ^ n = v' / 256 % 256 ^ n := by omega
      have byte : UInt8.ofNat v = UInt8.ofNat v' := by
        apply UInt8.toNat_inj.mp
        rw [UInt8.toNat_ofNat', UInt8.toNat_ofNat']
        exact low
      rw [store, store, ih high, byte]

/-- A number is not changed by a store beside it. -/
theorem load_store_apart (apart : b + k ≤ a ∨ a + n ≤ b) : (m.store n a v).load k b = m.load k b :=
  load_congr fun _ low high => store_apart (by omega)

/-- A number is not changed by filling bytes beside it. -/
theorem load_fill_apart {byte : UInt8} (apart : b + k ≤ a ∨ a + n ≤ b) :
    (m.fill a n byte).load k b = m.load k b :=
  load_congr fun _ low high => fill_apart (by omega)

end ByteMemory

end Riscv2os.Std
