import Riscv2os.Emulator.Memory
import Riscv2os.Std.Loops

/-!
# Which accesses the memory of the emulator accepts

The bounds of a chunk are computed in 32 bits. A chunk that ends at 2^32 or above has an end
below its beginning, so that it covers no address; below that, the check of an access goes wrong
only for an access that runs over the end of the address space.
-/

namespace Riscv2os.Emulator

open Riscv2os.Std

namespace Chunk

/-- The end of the chunk as a number. -/
def limit (c : Chunk) : Nat := c.begin_.toNat + c.size.toNat

/-- The `count` bytes from an address on lie inside the chunk. -/
def Contains (c : Chunk) (addr : BitVec 32) (count : Nat) : Prop :=
  c.begin_.toNat ≤ addr.toNat ∧ addr.toNat + count ≤ c.limit

/-- A chunk below the end of the address space has an address among its own. -/
def Covers (c : Chunk) (addr : BitVec 32) : Prop :=
  c.limit < 2 ^ 32 ∧ c.begin_.toNat ≤ addr.toNat ∧ addr.toNat < c.limit

instance (c : Chunk) (addr : BitVec 32) (count : Nat) : Decidable (c.Contains addr count) :=
  inferInstanceAs (Decidable (_ ∧ _))

instance (c : Chunk) (addr : BitVec 32) : Decidable (c.Covers addr) :=
  inferInstanceAs (Decidable (_ ∧ _))

theorem toNat_end (c : Chunk) : c.end_.toNat = c.limit % 2 ^ 32 := BitVec.toNat_add ..

theorem covers_iff (c : Chunk) (addr : BitVec 32) : c.covers addr = true ↔ c.Covers addr := by
  have lower := c.begin_.isLt
  have size := c.size.isLt
  have limit : c.limit = c.begin_.toNat + c.size.toNat := rfl
  unfold covers Covers
  rw [Bool.and_eq_true, decide_eq_true_iff, decide_eq_true_iff, BitVec.le_def, BitVec.lt_def, toNat_end]
  omega

/-- The check of an access of at most four bytes that begins in the chunk. -/
theorem inRange_iff {c : Chunk} {addr : BitVec 32} {count : Nat} (covers : c.Covers addr)
    (positive : 0 < count) (small : count ≤ 4) :
    ¬ addr + BitVec.ofNat 32 (count - 1) ≥ c.end_ ↔
      addr.toNat + count ≤ c.limit ∨ 2 ^ 32 < addr.toNat + count := by
  obtain ⟨fits, lower, upper⟩ := covers
  have bound := addr.isLt
  rw [ge_iff_le, BitVec.le_def, toNat_end, BitVec.toNat_add, BitVec.toNat_ofNat,
    Nat.mod_eq_of_lt fits, Nat.mod_eq_of_lt (a := count - 1) (by omega)]
  omega

end Chunk

namespace Memory

variable {m : Memory} {addr : BitVec 32} {i count : Nat} {c : Chunk}

theorem findChunk_ok : m.findChunk addr = .ok (i, c) ↔
    (m.chunks.zipIdx.find? fun c => c.1.covers addr) = some (c, i) := by
  unfold findChunk
  cases (m.chunks.zipIdx.find? fun c => c.1.covers addr) with
  | none => simp
  | some found =>
      obtain ⟨c', i'⟩ := found
      simp only [Except.ok.injEq, Prod.mk.injEq, Option.some.injEq]
      exact and_comm

/-- The chunk that is found covers the address, and no chunk before it does. -/
theorem findChunk_eq_iff : m.findChunk addr = .ok (i, c) ↔
    m.chunks[i]? = some c ∧ c.Covers addr ∧ ∀ j < i, ∀ c', m.chunks[j]? = some c' → ¬ c'.Covers addr := by
  rw [findChunk_ok, List.find?_eq_some_iff_getElem]
  simp only [Chunk.covers_iff, List.getElem_zipIdx, Nat.zero_add, Prod.mk.injEq, List.length_zipIdx,
    Bool.not_eq_true']
  constructor
  · rintro ⟨covers, place, inside, ⟨rfl, rfl⟩, before⟩
    refine ⟨List.getElem?_eq_getElem inside, covers, fun j earlier c' found covers' => ?_⟩
    obtain ⟨inside', rfl⟩ := List.getElem?_eq_some_iff.mp found
    have := before j earlier
    rw [← Bool.not_eq_true, Chunk.covers_iff] at this
    exact this covers'
  · rintro ⟨found, covers, before⟩
    obtain ⟨inside, rfl⟩ := List.getElem?_eq_some_iff.mp found
    refine ⟨covers, i, inside, ⟨rfl, rfl⟩, fun j earlier => ?_⟩
    rw [← Bool.not_eq_true, Chunk.covers_iff]
    exact before j earlier _ (List.getElem?_eq_getElem (earlier.trans inside))

theorem findChunk_error {stop : Stop} (missing : m.findChunk addr = .error stop) :
    (∃ format args, stop = .error format args) ∧ ∀ c ∈ m.chunks, ¬ c.Covers addr := by
  unfold findChunk at missing
  cases found : m.chunks.zipIdx.find? fun c => c.1.covers addr with
  | some pair =>
      rw [found] at missing
      cases missing
  | none =>
      rw [found] at missing
      cases missing
      refine ⟨⟨_, _, rfl⟩, fun c member covers => ?_⟩
      obtain ⟨i, inside, rfl⟩ := List.getElem_of_mem member
      have pair : (m.chunks[i], i) ∈ m.chunks.zipIdx := by
        simp [List.mem_zipIdx_iff_getElem?]
      exact List.find?_eq_none.mp found _ pair ((Chunk.covers_iff ..).mpr covers)

/-- The access goes to the array of a chunk: the chunk is found and the check passes. -/
def Accepts (m : Memory) (addr : BitVec 32) (count : Nat) : Prop :=
  ∃ i c, m.findChunk addr = .ok (i, c) ∧
    (addr.toNat + count ≤ c.limit ∨ 2 ^ 32 < addr.toNat + count)

end Memory

/-- A result that is not a call of `ERROR`. -/
def Unreported {α : Type} : Except Stop α → Prop
  | .error (.error _ _) => False
  | _ => True

theorem unreported_ok {α : Type} (value : α) : Unreported (.ok value : Except Stop α) := trivial

theorem Unreported.bind_iff {α β : Type} {first : Except Stop α} {next : α → Except Stop β}
    (silent : ∀ value, first = .ok value → Unreported (next value)) :
    Unreported (first >>= next) ↔ Unreported first := by
  cases first with
  | error stop => cases stop <;> exact Iff.rfl
  | ok value => exact iff_of_true (silent value rfl) trivial

namespace Memory

variable {m : Memory} {addr : BitVec 32} {count : Nat}

theorem unreported_check {α : Type} (name : String) (positive : 0 < count) (small : count ≤ 4)
    {use : Nat → Chunk → Except Stop α} (silent : ∀ i c, Unreported (use i c)) :
    Unreported (m.findChunk addr >>= fun found =>
      if addr + BitVec.ofNat 32 (count - 1) ≥ found.2.end_ then
        .error (.error (name ++ "() addr out of range!") [])
      else use found.1 found.2) ↔ m.Accepts addr count := by
  cases searched : m.findChunk addr with
  | error stop =>
      obtain ⟨⟨format, args, rfl⟩, _⟩ := findChunk_error searched
      refine iff_of_false id ?_
      rintro ⟨i, c, found, _⟩
      rw [searched] at found
      cases found
  | ok found =>
      obtain ⟨i, c⟩ := found
      have covers := (findChunk_eq_iff.mp searched).2.1
      have accepts : m.Accepts addr count ↔
          addr.toNat + count ≤ c.limit ∨ 2 ^ 32 < addr.toNat + count := by
        constructor
        · rintro ⟨i', c', found, fits⟩
          obtain ⟨rfl, rfl⟩ := Prod.mk.inj (Except.ok.inj (searched.symm.trans found))
          exact fits
        · exact fun fits => ⟨i, c, searched, fits⟩
      rw [accepts, ← Chunk.inRange_iff covers positive small]
      show Unreported (if _ then _ else _) ↔ _
      split
      · next outside => exact iff_of_false id fun inside => inside outside
      · next inside => exact iff_of_true (silent i c) inside

end Memory

/-- The functions that read and write the memory, with the data of a write. -/
inductive Access where
  | readW | readS | readB
  | writeW (data : BitVec 32) | writeS (data : BitVec 16) | writeB (data : BitVec 8)

namespace Access

/-- The number of bytes. -/
def count : Access → Nat
  | readW | writeW _ => 4
  | readS | writeS _ => 2
  | readB | writeB _ => 1

/-- The access, without its result. -/
def run (access : Access) (m : Memory) (addr : BitVec 32) : Except Stop Unit :=
  match access with
  | readW => do let _ ← m.readW addr
  | readS => do let _ ← m.readS addr
  | readB => do let _ ← m.readB addr
  | writeW data => do let _ ← m.writeW addr data
  | writeS data => do let _ ← m.writeS addr data
  | writeB data => do let _ ← m.writeB addr data

end Access

namespace Memory

variable {m : Memory} {addr : BitVec 32} {count : Nat}

theorem read_unreported (c : Chunk) (index count : Nat) : Unreported (c.read index count) := by
  unfold Chunk.read
  split
  · trivial
  · trivial

theorem write_unreported (c : Chunk) (index count data : Nat) :
    Unreported (c.write index count data) := by
  unfold Chunk.write
  split
  · trivial
  · trivial

theorem readBytes_unreported (name : String) (positive : 0 < count) (small : count ≤ 4) :
    Unreported (m.readBytes name count addr) ↔ m.Accepts addr count :=
  unreported_check name positive small fun _ c => read_unreported c (c.offset addr) count

theorem writeBytes_unreported (name : String) (data : Nat) (positive : 0 < count) (small : count ≤ 4) :
    Unreported (m.writeBytes name count addr data) ↔ m.Accepts addr count := by
  have store : ∀ (i : Nat) (c : Chunk), Unreported (c.write (c.offset addr) count data >>= fun c =>
      .ok (i, { m with chunks := m.chunks.set i c })) := fun _ c =>
    (Unreported.bind_iff fun _ _ => unreported_ok _).mpr (write_unreported c _ _ data)
  exact unreported_check name positive small store

theorem ioWriteB_unreported (i : Nat) (data : BitVec 8) : Unreported (m.ioWriteB i addr data) := by
  unfold ioWriteB
  split
  · split
    · trivial
    · next c _ =>
      rw [Unreported.bind_iff]
      · exact read_unreported ..
      · intro status _
        exact (Unreported.bind_iff fun _ _ => unreported_ok _).mpr (write_unreported ..)
  · trivial

/-- The bounds check is the whole condition of an access. -/
theorem run_unreported (access : Access) : Unreported (access.run m addr) ↔ m.Accepts addr access.count := by
  cases access with
  | readW =>
      refine (Unreported.bind_iff fun _ _ => unreported_ok _).trans ?_
      refine (Unreported.bind_iff fun _ _ => unreported_ok _).trans ?_
      exact readBytes_unreported _ (by decide) (by decide)
  | readS =>
      refine (Unreported.bind_iff fun _ _ => unreported_ok _).trans ?_
      refine (Unreported.bind_iff fun _ _ => unreported_ok _).trans ?_
      exact readBytes_unreported _ (by decide) (by decide)
  | readB =>
      refine (Unreported.bind_iff fun _ _ => unreported_ok _).trans ?_
      refine (Unreported.bind_iff fun _ _ => unreported_ok _).trans ?_
      exact readBytes_unreported _ (by decide) (by decide)
  | writeW data =>
      refine (Unreported.bind_iff fun _ _ => unreported_ok _).trans ?_
      refine (Unreported.bind_iff fun _ _ => unreported_ok _).trans ?_
      exact writeBytes_unreported _ _ (by decide) (by decide)
  | writeS data =>
      refine (Unreported.bind_iff fun _ _ => unreported_ok _).trans ?_
      refine (Unreported.bind_iff fun _ _ => unreported_ok _).trans ?_
      exact writeBytes_unreported _ _ (by decide) (by decide)
  | writeB data =>
      refine (Unreported.bind_iff fun _ _ => unreported_ok _).trans ?_
      refine (Unreported.bind_iff fun value _ => ioWriteB_unreported ..).trans ?_
      exact writeBytes_unreported _ _ (by decide) (by decide)

/-- The ways in which the bounds of an access go wrong. -/
inductive Misjudged (m : Memory) (addr : BitVec 32) (count : Nat) : Prop where
  /-- The access runs over the end of the address space, from a chunk that ends below it. -/
  | wraps (c : Chunk) (member : c ∈ m.chunks) (covers : c.Covers addr) (beyond : 2 ^ 32 < addr.toNat + count)
  /-- Only chunks that end at 2^32 or above have the access. -/
  | highEnd (c : Chunk) (member : c ∈ m.chunks) (contains : c.Contains addr count)
      (alone : ∀ c ∈ m.chunks, ¬ c.Covers addr)
  /-- A chunk has the access, but the first one that covers the address ends before it. -/
  | overlap (i : Nat) (c c' : Chunk) (place : m.chunks[i]? = some c) (covers : c.Covers addr)
      (first : ∀ j < i, ∀ c', m.chunks[j]? = some c' → ¬ c'.Covers addr)
      (short : c.limit < addr.toNat + count)
      (member : c' ∈ m.chunks) (contains : c'.Contains addr count)

/-- An access is accepted exactly if it lies inside a chunk, which is then the chunk found, but for
three kinds of accesses. -/
theorem accepts_inside_iff (m : Memory) (addr : BitVec 32) (access : Access) :
    ((Unreported (access.run m addr) →
        ∃ i c, m.findChunk addr = .ok (i, c) ∧ c.Contains addr access.count) ∧
      ((∃ c ∈ m.chunks, c.Contains addr access.count) → Unreported (access.run m addr))) ↔
      ¬ m.Misjudged addr access.count := by
  rw [run_unreported]
  have positive : 0 < access.count := by cases access <;> exact Nat.zero_lt_succ _
  have small : access.count ≤ 4 := by cases access <;> simp [Access.count]
  generalize access.count = count at positive small
  constructor
  · rintro ⟨inside, accepted⟩ (⟨c, member, covers, beyond⟩ | ⟨c, member, contains, alone⟩ |
      ⟨i, c, c', place, covers, first, short, member, contains⟩)
    · cases searched : m.findChunk addr with
      | error stop => exact (findChunk_error searched).2 c member covers
      | ok found =>
          obtain ⟨i, c'⟩ := found
          obtain ⟨i', c'', found, contains⟩ := inside ⟨i, c', searched, .inr beyond⟩
          have below := (findChunk_eq_iff.mp found).2.1.1
          have := contains.2
          omega
    · obtain ⟨i, c', found, _⟩ := accepted ⟨c, member, contains⟩
      obtain ⟨place, covers, _⟩ := findChunk_eq_iff.mp found
      exact alone c' (List.mem_of_getElem? place) covers
    · have found := findChunk_eq_iff.mpr ⟨place, covers, first⟩
      obtain ⟨i', c'', found', contains'⟩ := inside (accepted ⟨c', member, contains⟩)
      obtain ⟨rfl, rfl⟩ := Prod.mk.inj (Except.ok.inj (found.symm.trans found'))
      have := contains'.2
      omega
  · intro fine
    constructor
    · rintro ⟨i, c, found, fits | beyond⟩
      · exact ⟨i, c, found, (findChunk_eq_iff.mp found).2.1.2.1, fits⟩
      · obtain ⟨place, covers, _⟩ := findChunk_eq_iff.mp found
        exact absurd (.wraps c (List.mem_of_getElem? place) covers beyond) fine
    · rintro ⟨c, member, contains⟩
      cases searched : m.findChunk addr with
      | error stop =>
          exact absurd (.highEnd c member contains (findChunk_error searched).2) fine
      | ok found =>
          obtain ⟨i, c'⟩ := found
          obtain ⟨place, covers, first⟩ := findChunk_eq_iff.mp searched
          by_cases fits : addr.toNat + count ≤ c'.limit
          · exact ⟨i, c', searched, .inl fits⟩
          · exact absurd (.overlap i c' c place covers first (by omega) member contains) fine

/-- A chunk of 255 bytes that ends one byte below the end of the address space. -/
def lastChunk : Memory where
  chunks := [⟨0xFFFFFF00, 0xFF, fun _ => 0⟩]

/-- A word is read at `0xFFFFFFFE`, of which the chunk has one byte. -/
theorem accepts_outside :
    Unreported (Access.readW.run lastChunk 0xFFFFFFFE) ∧
      ∀ i c, lastChunk.findChunk 0xFFFFFFFE = .ok (i, c) → ¬ c.Contains 0xFFFFFFFE 4 := by
  constructor
  · have outside : Access.readW.run lastChunk 0xFFFFFFFE = .error .outOfBounds := rfl
    rw [outside]
    trivial
  · intro i c found
    have found' : lastChunk.findChunk 0xFFFFFFFE = .ok (0, ⟨0xFFFFFF00, 0xFF, fun _ => 0⟩) := rfl
    obtain ⟨rfl, rfl⟩ := Prod.mk.inj (Except.ok.inj (found'.symm.trans found))
    decide

end Memory

end Riscv2os.Emulator
