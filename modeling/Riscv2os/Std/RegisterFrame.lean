import Riscv2os.Std.RiscV

/-!
# Registers in a flat memory

Words in a memory of bytes, and blocks of registers that are stored at offsets from a base register
and loaded again, as the trap and switch code of a kernel does. A slot is a register with its
offset.
-/

namespace Riscv2os.Std

open RiscV (Reg writeReg writeReg_zero writeReg_self)

/-- A flat memory of bytes. -/
abbrev FlatMemory := BitVec 32 → BitVec 8

namespace FlatMemory

variable {m : FlatMemory} {a b v : BitVec 32} {i k offset : Nat}

/-- A byte of a word, the least significant first. -/
def byteOf (v : BitVec 32) (k : Nat) : BitVec 8 := v.extractLsb' (8 * k) 8

/-- The word at an address. -/
def load (m : FlatMemory) (a : BitVec 32) : BitVec 32 := m (a + 3) ++ m (a + 2) ++ m (a + 1) ++ m a

/-- Store a word at an address. -/
def store (m : FlatMemory) (a v : BitVec 32) : FlatMemory := fun b =>
  if (b - a).toNat < 4 then byteOf v (b - a).toNat else m b

theorem append_byteOf (v : BitVec 32) :
    byteOf v 3 ++ byteOf v 2 ++ byteOf v 1 ++ byteOf v 0 = v := by
  apply BitVec.eq_of_getLsbD_eq
  intro i small
  interval_cases i <;> simp only [byteOf, BitVec.getLsbD_append, BitVec.getLsbD_extractLsb'] <;> rfl

theorem byteOf_append (b0 b1 b2 b3 : BitVec 8) :
    byteOf (b3 ++ b2 ++ b1 ++ b0) 0 = b0 ∧ byteOf (b3 ++ b2 ++ b1 ++ b0) 1 = b1 ∧
      byteOf (b3 ++ b2 ++ b1 ++ b0) 2 = b2 ∧ byteOf (b3 ++ b2 ++ b1 ++ b0) 3 = b3 := by
  refine ⟨?_, ?_, ?_, ?_⟩ <;>
  · apply BitVec.eq_of_getLsbD_eq
    intro i small
    interval_cases i <;> simp only [byteOf, BitVec.getLsbD_append, BitVec.getLsbD_extractLsb'] <;> rfl

/-- A word is what its four bytes are. -/
theorem load_eq_iff : m.load a = v ↔ ∀ k < 4, m (a + BitVec.ofNat 32 k) = byteOf v k := by
  have zero : a + BitVec.ofNat 32 0 = a := BitVec.add_zero a
  constructor
  · rintro rfl k small
    obtain ⟨first, second, third, fourth⟩ := byteOf_append (m a) (m (a + 1)) (m (a + 2)) (m (a + 3))
    interval_cases k
    · rw [zero]
      exact first.symm
    · exact second.symm
    · exact third.symm
    · exact fourth.symm
  · intro bytes
    have first := bytes 0 (by omega)
    rw [zero] at first
    have second : m (a + 1) = byteOf v 1 := bytes 1 (by omega)
    have third : m (a + 2) = byteOf v 2 := bytes 2 (by omega)
    have fourth : m (a + 3) = byteOf v 3 := bytes 3 (by omega)
    rw [load, first, second, third, fourth, append_byteOf]

/-- The distance of two offsets from one base. -/
theorem toNat_offset_sub (inside : i < 2 ^ 32) (fits : offset < 2 ^ 32) :
    ((a + BitVec.ofNat 32 i) - (a + BitVec.ofNat 32 offset)).toNat =
      if offset ≤ i then i - offset else i + 2 ^ 32 - offset := by
  have same : (a + BitVec.ofNat 32 i) - (a + BitVec.ofNat 32 offset) =
      BitVec.ofNat 32 i - BitVec.ofNat 32 offset := by
    exact add_sub_add_left_eq_sub ..
  rw [same, BitVec.toNat_sub, BitVec.toNat_ofNat, BitVec.toNat_ofNat]
  split <;> omega

theorem add_offset (a : BitVec 32) (i k : Nat) :
    a + BitVec.ofNat 32 i + BitVec.ofNat 32 k = a + BitVec.ofNat 32 (i + k) := by
  rw [BitVec.add_assoc, BitVec.ofNat_add]

/-- A byte after a store, both at offsets from one base. -/
theorem store_offset (inside : i < 2 ^ 32) (fits : offset + 4 ≤ 2 ^ 32) :
    m.store (a + BitVec.ofNat 32 offset) v (a + BitVec.ofNat 32 i) =
      if offset ≤ i ∧ i < offset + 4 then byteOf v (i - offset) else m (a + BitVec.ofNat 32 i) := by
  rw [store, toNat_offset_sub inside (by omega)]
  by_cases behind : offset ≤ i
  · rw [if_pos behind]
    by_cases near : i < offset + 4
    · rw [if_pos (by omega), if_pos ⟨behind, near⟩]
    · rw [if_neg (by omega), if_neg fun both => near both.2]
  · rw [if_neg behind, if_neg (by omega), if_neg fun both => behind both.1]

/-- A word that was stored is loaded back. -/
@[simp] theorem load_store_self : (m.store a v).load a = v := by
  refine load_eq_iff.mpr fun k small => ?_
  have distance : (a + BitVec.ofNat 32 k - a).toNat = k := by
    rw [add_sub_cancel_left, BitVec.toNat_ofNat]
    omega
  rw [store, distance, if_pos small]

end FlatMemory

namespace RiscV

/-! The general registers by the names of the calling convention. -/

abbrev ra : Reg := 1
abbrev sp : Reg := 2
abbrev gp : Reg := 3
abbrev tp : Reg := 4
abbrev t0 : Reg := 5
abbrev t1 : Reg := 6
abbrev t2 : Reg := 7
abbrev s0 : Reg := 8
abbrev s1 : Reg := 9
abbrev a0 : Reg := 10
abbrev a1 : Reg := 11
abbrev a2 : Reg := 12
abbrev a3 : Reg := 13
abbrev a4 : Reg := 14
abbrev a5 : Reg := 15
abbrev a6 : Reg := 16
abbrev a7 : Reg := 17
abbrev s2 : Reg := 18
abbrev s3 : Reg := 19
abbrev s4 : Reg := 20
abbrev s5 : Reg := 21
abbrev s6 : Reg := 22
abbrev s7 : Reg := 23
abbrev s8 : Reg := 24
abbrev s9 : Reg := 25
abbrev s10 : Reg := 26
abbrev s11 : Reg := 27
abbrev t3 : Reg := 28
abbrev t4 : Reg := 29
abbrev t5 : Reg := 30
abbrev t6 : Reg := 31

end RiscV

/-- A register and its offset. -/
abbrev Slot := Reg × Nat

namespace RegisterFrame

open FlatMemory

variable {b r : Reg} {x x' : Reg → BitVec 32} {slots : List Slot} {s : Slot} {m : FlatMemory} {i k : Nat}

/-- `sw r, offset(b)` for every slot. -/
def saveRegs (b : Reg) (x : Reg → BitVec 32) (slots : List Slot) (m : FlatMemory) : FlatMemory :=
  slots.foldl (fun m s => m.store (x b + BitVec.ofNat 32 s.2) (x s.1)) m

/-- `lw r, offset(b)` for every slot. -/
def loadRegs (b : Reg) (slots : List Slot) (m : FlatMemory) (x : Reg → BitVec 32) : Reg → BitVec 32 :=
  slots.foldl (fun x s => writeReg x s.1 (m.load (x b + BitVec.ofNat 32 s.2))) x

/-- The words of the slots do not overlap, and none wraps around. -/
structure Apart (slots : List Slot) : Prop where
  words : slots.Pairwise fun s s' => s.2 + 4 ≤ s'.2 ∨ s'.2 + 4 ≤ s.2
  fits : ∀ s ∈ slots, s.2 + 4 ≤ 2 ^ 32

instance : Decidable (Apart slots) :=
  decidable_of_iff (slots.Pairwise (fun s s' => s.2 + 4 ≤ s'.2 ∨ s'.2 + 4 ≤ s.2) ∧
    ∀ s ∈ slots, s.2 + 4 ≤ 2 ^ 32) ⟨fun both => ⟨both.1, both.2⟩, fun apart => ⟨apart.1, apart.2⟩⟩

theorem Apart.tail (apart : Apart (s :: slots)) : Apart slots :=
  ⟨(List.pairwise_cons.mp apart.words).2, fun _ member => apart.fits _ (.tail _ member)⟩

/-- The bytes that no slot holds are left alone. -/
theorem saveRegs_outside (apart : Apart slots) (inside : i < 2 ^ 32)
    (outside : ∀ s ∈ slots, i < s.2 ∨ s.2 + 4 ≤ i) :
    saveRegs b x slots m (x b + BitVec.ofNat 32 i) = m (x b + BitVec.ofNat 32 i) := by
  induction slots generalizing m with
  | nil => rfl
  | cons s slots ih =>
      have here := outside s List.mem_cons_self
      have rest : saveRegs b x (s :: slots) m (x b + BitVec.ofNat 32 i) =
          m.store (x b + BitVec.ofNat 32 s.2) (x s.1) (x b + BitVec.ofNat 32 i) :=
        ih apart.tail fun s' member => outside s' (.tail _ member)
      rw [rest, store_offset inside (apart.fits s List.mem_cons_self), if_neg (by omega)]

/-- Every slot holds its register. -/
theorem saveRegs_slot (apart : Apart slots) (member : s ∈ slots) (small : k < 4) :
    saveRegs b x slots m (x b + BitVec.ofNat 32 (s.2 + k)) = byteOf (x s.1) k := by
  induction slots generalizing m with
  | nil => exact absurd member List.not_mem_nil
  | cons s' slots ih =>
      have fits := apart.fits s member
      obtain rfl | later := List.mem_cons.mp member
      · have rest : saveRegs b x (s :: slots) m (x b + BitVec.ofNat 32 (s.2 + k)) =
            m.store (x b + BitVec.ofNat 32 s.2) (x s.1) (x b + BitVec.ofNat 32 (s.2 + k)) := by
          refine saveRegs_outside apart.tail (by omega) fun s' member' => ?_
          have words := (List.pairwise_cons.mp apart.words).1 s' member'
          omega
        rw [rest, store_offset (by omega) fits, if_pos (by omega), Nat.add_sub_cancel_left]
      · exact ih apart.tail later

/-- The registers that no slot names are left alone. -/
theorem loadRegs_outside (zero : x 0 = 0) (outside : ∀ s ∈ slots, s.1 ≠ r) : loadRegs b slots m x r = x r := by
  induction slots generalizing x with
  | nil => rfl
  | cons s slots ih =>
      have rest : loadRegs b (s :: slots) m x r = writeReg x s.1 (m.load (x b + BitVec.ofNat 32 s.2)) r :=
        ih (writeReg_zero ..) fun s' member => outside s' (.tail _ member)
      rw [rest, writeReg]
      split
      · next is => rw [is, zero]
      · rw [if_neg fun same => outside s List.mem_cons_self same.symm]

/-- Every register that is loaded gets the word of its slot, as long as the base stays. -/
theorem loadRegs_slot (distinct : slots.Pairwise fun s s' => s.1 ≠ s'.1)
    (stays : ∀ s ∈ slots, s.1 ≠ b) (base : b ≠ 0) (member : s ∈ slots) (positive : s.1 ≠ 0) :
    loadRegs b slots m x s.1 = m.load (x b + BitVec.ofNat 32 s.2) := by
  induction slots generalizing x with
  | nil => exact absurd member List.not_mem_nil
  | cons s' slots ih =>
      obtain rfl | later := List.mem_cons.mp member
      · have rest : loadRegs b (s :: slots) m x s.1 =
            writeReg x s.1 (m.load (x b + BitVec.ofNat 32 s.2)) s.1 :=
          loadRegs_outside (writeReg_zero ..) fun s' member' =>
            ((List.pairwise_cons.mp distinct).1 s' member').symm
        rw [rest, writeReg_self _ positive]
      · have kept : writeReg x s'.1 (m.load (x b + BitVec.ofNat 32 s'.2)) b = x b := by
          rw [writeReg, if_neg base, if_neg fun same => stays s' List.mem_cons_self same.symm]
        rw [← kept]
        exact ih (List.pairwise_cons.mp distinct).2 (fun s'' member' => stays s'' (.tail _ member')) later

end RegisterFrame

end Riscv2os.Std
