import Riscv2os.Emulator.ControlFlow
import Riscv2os.Emulator.MemoryAccess
import Riscv2os.Std.TransitionSystem

/-!
# Loads and stores of the emulator over runs

The bytes of the memory are those of the first chunk that covers an address. An access whose bytes
all lie in the chunk that is found reads or writes these bytes, provided that no chunk begins
inside one that comes after it. Over a run, a byte is then what was stored last at its address, and
a byte of the ELF file where nothing was stored.
-/

namespace Riscv2os.Emulator

open Riscv2os.Std
open RiscV (Reg LoadOp StoreOp littleEndian writeReg)

namespace Memory

variable {m m' : Memory} {addr a : BitVec 32} {count data i : Nat} {c c' : Chunk}

/-- The byte at an address, of the first chunk that covers it. -/
def byteAt (m : Memory) (addr : BitVec 32) : Option UInt8 :=
  (m.findChunk addr).toOption.map fun found => found.2.mem.byte (found.2.offset addr)

/-- The access lies in the chunk that is found for its address, and this is not the chunk of the
UART, which is the last one. -/
def Inside (m : Memory) (addr : BitVec 32) (count : Nat) : Prop :=
  ∃ i c, m.findChunk addr = .ok (i, c) ∧ c.Contains addr count ∧ i + 1 < m.chunks.length

/-- No chunk begins inside one that comes after it, but for the UART. -/
def Layered (m : Memory) : Prop :=
  ∀ i j c c', i < j → j + 1 < m.chunks.length → m.chunks[i]? = some c → m.chunks[j]? = some c' →
    ¬ (c'.begin_.toNat < c.begin_.toNat ∧ c.begin_.toNat < c'.limit)

/-- The chunks of two memories have the same places and the same bounds. -/
def SameSpans (m m' : Memory) : Prop :=
  m'.chunks.map (fun c => (c.begin_, c.size)) = m.chunks.map fun c => (c.begin_, c.size)

theorem byteAt_of_found (found : m.findChunk addr = .ok (i, c)) :
    m.byteAt addr = some (c.mem.byte (c.offset addr)) := by
  rw [byteAt, found]
  rfl

theorem toNat_add_small {k : Nat} (inside : addr.toNat + k < 2 ^ 32) :
    (addr + BitVec.ofNat 32 k).toNat = addr.toNat + k := by
  rw [BitVec.toNat_add, BitVec.toNat_ofNat]
  omega

theorem offset_eq (covers : c.Covers addr) : c.offset addr = addr.toNat - c.begin_.toNat := by
  have lower := covers.2.1
  rw [Chunk.offset, BitVec.toNat_sub_of_le (BitVec.le_def.mpr lower)]

/-- All bytes of an access are bytes of the chunk that is found for its first one. -/
theorem findChunk_add (layered : m.Layered) (found : m.findChunk addr = .ok (i, c))
    (contains : c.Contains addr count) (ram : i + 1 < m.chunks.length) {k : Nat} (inside : k < count) :
    m.findChunk (addr + BitVec.ofNat 32 k) = .ok (i, c) := by
  obtain ⟨place, covers, first⟩ := findChunk_eq_iff.mp found
  have fits := covers.1
  have lower := contains.1
  have upper := contains.2
  have number : (addr + BitVec.ofNat 32 k).toNat = addr.toNat + k := toNat_add_small (by omega)
  refine findChunk_eq_iff.mpr ⟨place, ⟨fits, by omega, by omega⟩, fun j earlier c' place' covers' => ?_⟩
  have before := first j earlier c' place'
  obtain ⟨fits', lower', upper'⟩ := covers'
  rw [number] at lower' upper'
  by_cases below : c'.begin_.toNat ≤ addr.toNat
  · exact before ⟨fits', below, by omega⟩
  · exact layered j i c' c earlier ram place' place ⟨by omega, by omega⟩

/-- A read inside a chunk gives the bytes of the access. -/
theorem readBytes_inside (name : String) (layered : m.Layered) (inside : m.Inside addr count)
    (positive : 0 < count) (small : count ≤ 4) {byte : Nat → UInt8}
    (bytes : ∀ k < count, m.byteAt (addr + BitVec.ofNat 32 k) = some (byte k)) :
    m.readBytes name count addr = .ok (littleEndian count byte) := by
  obtain ⟨i, c, found, contains, ram⟩ := inside
  have covers := (findChunk_eq_iff.mp found).2.1
  have upper := contains.2
  have limit : c.limit = c.begin_.toNat + c.size.toNat := rfl
  have accepted := (Chunk.inRange_iff covers positive small).mpr (.inl upper)
  unfold readBytes
  rw [found, ok_bind]
  show (if _ then _ else _) = _
  rw [if_neg accepted, Chunk.read, if_pos (by rw [offset_eq covers]; have := contains.1; omega)]
  refine congrArg Except.ok (RiscV.littleEndian_congr fun k within => ?_)
  have known := bytes k within
  have here := findChunk_add layered found contains ram within
  have covers' := (findChunk_eq_iff.mp here).2.1
  have fits := covers.1
  have number : (addr + BitVec.ofNat 32 k).toNat = addr.toNat + k := toNat_add_small (by omega)
  rw [byteAt_of_found here, Option.some.injEq, offset_eq covers', number] at known
  rw [← known, offset_eq covers]
  have := contains.1
  congr 1
  omega

namespace SameSpans

theorem length (same : SameSpans m m') : m'.chunks.length = m.chunks.length := by
  have := congrArg List.length same
  simpa using this

theorem at_ (same : SameSpans m m') (place : m.chunks[i]? = some c) :
    ∃ c', m'.chunks[i]? = some c' ∧ c'.begin_ = c.begin_ ∧ c'.size = c.size := by
  have here := congrArg (·[i]?) same
  simp only [List.getElem?_map, place, Option.map_some] at here
  obtain ⟨c', place', equal⟩ := Option.map_eq_some_iff.mp here
  exact ⟨c', place', congrArg Prod.fst equal, congrArg Prod.snd equal⟩

theorem symm (same : SameSpans m m') : SameSpans m' m := Eq.symm same

theorem covers_congr (begins : c'.begin_ = c.begin_) (sizes : c'.size = c.size) :
    c'.Covers addr ↔ c.Covers addr := by
  rw [Chunk.Covers, Chunk.Covers, Chunk.limit, Chunk.limit, begins, sizes]

theorem findChunk (same : SameSpans m m') (found : m.findChunk addr = .ok (i, c)) :
    ∃ c', m'.findChunk addr = .ok (i, c') ∧ c'.begin_ = c.begin_ ∧ c'.size = c.size := by
  obtain ⟨place, covers, first⟩ := findChunk_eq_iff.mp found
  obtain ⟨c', place', begins, sizes⟩ := same.at_ place
  refine ⟨c', findChunk_eq_iff.mpr ⟨place', (covers_congr begins sizes).mpr covers,
    fun j earlier d' placed covers' => ?_⟩, begins, sizes⟩
  obtain ⟨d, placed', begins', sizes'⟩ := same.symm.at_ placed
  exact first j earlier d placed' ((covers_congr begins' sizes').mpr covers')

theorem inside (same : SameSpans m m') (inside : m.Inside addr count) : m'.Inside addr count := by
  obtain ⟨i, c, found, contains, ram⟩ := inside
  obtain ⟨c', found', begins, sizes⟩ := same.findChunk found
  refine ⟨i, c', found', ?_, by rw [same.length]; exact ram⟩
  rw [Chunk.Contains, Chunk.limit, begins, sizes]
  exact contains

theorem layered (same : SameSpans m m') (layered : m.Layered) : m'.Layered := by
  intro i j c c' earlier ram place place'
  obtain ⟨d, placed, begins, sizes⟩ := same.symm.at_ place
  obtain ⟨d', placed', begins', sizes'⟩ := same.symm.at_ place'
  have apart := layered i j d d' earlier (by rw [← same.length]; exact ram) placed placed'
  rw [begins, begins', Chunk.limit, begins', sizes'] at apart
  exact apart

end SameSpans

end Memory

/-- The chunk with the low `count` bytes of `data` stored from an index on. -/
def Chunk.store (c : Chunk) (index count data : Nat) : Chunk :=
  { c with mem := fun place =>
      if index ≤ place.val ∧ place.val < index + count then
        UInt8.ofNat (data / 256 ^ (place.val - index))
      else c.mem place }

theorem Chunk.byte_store (c : Chunk) (index count data : Nat) {place : Nat} (inside : place < c.size.toNat) :
    (c.store index count data).mem.byte place =
      if index ≤ place ∧ place < index + count then UInt8.ofNat (data / 256 ^ (place - index))
      else c.mem.byte place := by
  rw [Bytes.byte_eq (c.store index count data).mem inside, Bytes.byte_eq c.mem inside]
  rfl

namespace Memory

variable {m m' : Memory} {addr a : BitVec 32} {count data i : Nat} {c d : Chunk}

/-- The chunk at one place gets other bytes. -/
theorem sameSpans_set (place : m.chunks[i]? = some c) (begins : d.begin_ = c.begin_)
    (sizes : d.size = c.size) : SameSpans m { m with chunks := m.chunks.set i d } := by
  obtain ⟨inside, rfl⟩ := List.getElem?_eq_some_iff.mp place
  unfold SameSpans
  rw [List.map_set, begins, sizes]
  apply List.ext_getElem?
  intro j
  rw [List.getElem?_set]
  split
  · next same =>
    subst same
    simp [inside]
  · rfl

/-- Where an address is found after the change. -/
theorem findChunk_set (place : m.chunks[i]? = some c) (begins : d.begin_ = c.begin_)
    (sizes : d.size = c.size) {j : Nat} {c' : Chunk} :
    m.findChunk a = .ok (j, c') →
      findChunk { m with chunks := m.chunks.set i d } a = .ok (j, if j = i then d else c') := by
  intro found
  have spans := sameSpans_set place begins sizes
  obtain ⟨d', found', _⟩ := spans.findChunk found
  have placed : (m.chunks.set i d)[j]? = some d' := (findChunk_eq_iff.mp found').1
  have inside : i < m.chunks.length := by
    obtain ⟨inside, _⟩ := List.getElem?_eq_some_iff.mp place
    exact inside
  rw [found']
  by_cases same : j = i
  · rw [same, List.getElem?_set_self inside] at placed
    rw [if_pos same, Option.some.inj placed]
  · rw [List.getElem?_set_ne (Ne.symm same), (findChunk_eq_iff.mp found).1] at placed
    rw [if_neg same, Option.some.inj placed]

/-- The bytes after the change. -/
theorem byteAt_set (place : m.chunks[i]? = some c) (begins : d.begin_ = c.begin_)
    (sizes : d.size = c.size)
    (kept : m.findChunk a = .ok (i, c) → d.mem.byte (d.offset a) = c.mem.byte (c.offset a)) :
    byteAt { m with chunks := m.chunks.set i d } a = m.byteAt a := by
  cases searched : m.findChunk a with
  | error stop =>
      have spans := sameSpans_set place begins sizes
      cases searched' : findChunk { m with chunks := m.chunks.set i d } a with
      | error stop' => rw [byteAt, byteAt, searched, searched']; rfl
      | ok found =>
          obtain ⟨c', found', _⟩ := spans.symm.findChunk searched'
          rw [searched] at found'
          cases found'
  | ok found =>
      obtain ⟨j, c'⟩ := found
      rw [byteAt_of_found searched, byteAt_of_found (findChunk_set place begins sizes searched)]
      by_cases same : j = i
      · subst same
        have here := (findChunk_eq_iff.mp searched).1
        rw [place] at here
        obtain rfl := Option.some.inj here
        rw [if_pos rfl, kept searched]
      · rw [if_neg same]

/-- What a write inside a chunk does: its bytes are stored, and every other byte stays. -/
structure Stored (m m' : Memory) (addr : BitVec 32) (count data : Nat) : Prop where
  spans : SameSpans m m'
  out : m'.out = m.out
  byte : ∀ a, m'.byteAt a =
    if (a - addr).toNat < count then some (UInt8.ofNat (data / 256 ^ (a - addr).toNat)) else m.byteAt a

theorem store_stored (layered : m.Layered) (found : m.findChunk addr = .ok (i, c))
    (contains : c.Contains addr count) (ram : i + 1 < m.chunks.length) :
    Stored m { m with chunks := m.chunks.set i (c.store (c.offset addr) count data) } addr count data := by
  obtain ⟨place, covers, first⟩ := findChunk_eq_iff.mp found
  have lower := contains.1
  have upper := contains.2
  have fits := covers.1
  have limit : c.limit = c.begin_.toNat + c.size.toNat := rfl
  refine ⟨sameSpans_set place rfl rfl, rfl, fun a => ?_⟩
  by_cases within : (a - addr).toNat < count
  · -- the address is one of the access, and so in the chunk that is written
    have sum : a = addr + BitVec.ofNat 32 (a - addr).toNat := by
      rw [BitVec.ofNat_toNat, BitVec.setWidth_eq, BitVec.add_comm, BitVec.sub_add_cancel]
    have here := findChunk_add layered found contains ram within
    rw [← sum] at here
    have number : a.toNat = addr.toNat + (a - addr).toNat := by
      conv_lhs => rw [sum]
      exact toNat_add_small (by omega)
    have offset : c.offset a = c.offset addr + (a - addr).toNat := by
      rw [offset_eq (findChunk_eq_iff.mp here).2.1, offset_eq covers]
      omega
    have inside : c.offset a < c.size.toNat := by
      rw [offset, offset_eq covers]
      omega
    have here := findChunk_set (d := c.store (c.offset addr) count data) place rfl rfl here
    rw [if_pos within, byteAt_of_found here, if_pos rfl]
    show some ((c.store (c.offset addr) count data).mem.byte (c.offset a)) = _
    rw [Chunk.byte_store _ _ _ _ inside, offset, if_pos ⟨Nat.le_add_right .., by omega⟩,
      Nat.add_sub_cancel_left]
  · rw [if_neg within]
    refine byteAt_set place rfl rfl fun here => ?_
    have covers' := (findChunk_eq_iff.mp here).2.1
    have inside : c.offset a < c.size.toNat := by
      rw [offset_eq covers']
      have := covers'.2
      omega
    show (c.store (c.offset addr) count data).mem.byte (c.offset a) = _
    rw [Chunk.byte_store _ _ _ _ inside, if_neg]
    rintro ⟨above, below⟩
    rw [offset_eq covers', offset_eq covers] at above below
    have lower' := covers'.2.1
    refine within ?_
    rw [BitVec.toNat_sub_of_le (BitVec.le_def.mpr (by omega))]
    omega

/-- A write inside a chunk returns. -/
theorem writeBytes_stored (name : String) (data : Nat) (layered : m.Layered)
    (inside : m.Inside addr count) (positive : 0 < count) (small : count ≤ 4) :
    ∃ i m', m.writeBytes name count addr data = .ok (i, m') ∧ Stored m m' addr count data := by
  obtain ⟨i, c, found, contains, ram⟩ := inside
  have covers := (findChunk_eq_iff.mp found).2.1
  have limit : c.limit = c.begin_.toNat + c.size.toNat := rfl
  have accepted := (Chunk.inRange_iff covers positive small).mpr (.inl contains.2)
  have room : c.offset addr + count ≤ c.size.toNat := by
    rw [offset_eq covers]
    have := contains.1
    have := contains.2
    omega
  refine ⟨i, _, ?_, store_stored layered found contains ram⟩
  unfold writeBytes
  rw [found, ok_bind]
  show (if _ then _ else _) = _
  rw [if_neg accepted, Chunk.write, if_pos room]
  rfl

/-- A store of the same low bytes. -/
theorem Stored.congr {data' : Nat} (stored : Stored m m' addr count data)
    (same : ∀ k < count, data / 256 ^ k % 256 = data' / 256 ^ k % 256) : Stored m m' addr count data' := by
  refine ⟨stored.spans, stored.out, fun a => ?_⟩
  rw [stored.byte]
  split
  · next within =>
    congr 1
    apply UInt8.toNat_inj.mp
    simpa using same _ within
  · rfl

end Memory

namespace Machine

variable {m : Machine} {inst : BitVec 32}

theorem rvDecode_funct3 : (rvDecode inst).funct3 = (RiscV.funct3 inst).setWidth 32 := decFunct3_eq inst

/-- The address of a load. -/
def loadAddr (m : Machine) (inst : BitVec 32) : BitVec 32 := m.x (RiscV.rs1 inst) + RiscV.immI inst 32

/-- The address of a store. -/
def storeAddr (m : Machine) (inst : BitVec 32) : BitVec 32 := m.x (RiscV.rs1 inst) + RiscV.immS inst 32

/-- A load inside a chunk. `LHU` alone asks for an even address. -/
theorem rvLoad_inside (op : LoadOp) (funct3 : RiscV.funct3 inst = op.funct3) (layered : m.memory.Layered)
    (inside : m.memory.Inside (m.loadAddr inst) op.count)
    (even : op = .lhu → m.loadAddr inst &&& 1 = 0) {byte : Nat → UInt8}
    (bytes : ∀ k < op.count, m.memory.byteAt (m.loadAddr inst + BitVec.ofNat 32 k) = some (byte k)) :
    m.rvLoad (rvDecode inst) =
      .ok (m.set (rvDecode inst).rd (op.extend (littleEndian op.count byte))).next := by
  have read : ∀ name, m.memory.readBytes name op.count (m.loadAddr inst) =
      .ok (littleEndian op.count byte) := fun name =>
    Memory.readBytes_inside name layered inside (by cases op <;> decide) (by cases op <;> decide) bytes
  unfold rvLoad
  rw [rvDecode_funct3, funct3, get_rs1, rvDecode_iImm]
  cases op with
  | lb =>
      show (do
        let b ← m.memory.readB (m.loadAddr inst)
        return (m.set (rvDecode inst).rd (b.signExtend 32)).next) = _
      have read : m.memory.readBytes "mem_read_b" 1 (m.loadAddr inst) = _ := read _
      rw [Memory.readB, read]
      rfl
  | lh =>
      show (do
        let b ← m.memory.readS (m.loadAddr inst)
        return (m.set (rvDecode inst).rd (b.signExtend 32)).next) = _
      have read : m.memory.readBytes "mem_read_s" 2 (m.loadAddr inst) = _ := read _
      rw [Memory.readS, read]
      rfl
  | lw =>
      show (do
        let b ← m.memory.readW (m.loadAddr inst)
        return (m.set (rvDecode inst).rd b).next) = _
      have read : m.memory.readBytes "mem_read_w" 4 (m.loadAddr inst) = _ := read _
      rw [Memory.readW, read]
      simp only [LoadOp.extend, BitVec.signExtend_eq]
      rfl
  | lbu =>
      show (do
        let b ← m.memory.readB (m.loadAddr inst)
        return (m.set (rvDecode inst).rd (b.setWidth 32)).next) = _
      have read : m.memory.readBytes "mem_read_b" 1 (m.loadAddr inst) = _ := read _
      rw [Memory.readB, read]
      rfl
  | lhu =>
      show (if m.loadAddr inst &&& 1 ≠ 0 then _ else do
        let b ← m.memory.readS (m.loadAddr inst)
        return (m.set (rvDecode inst).rd (b.setWidth 32)).next) = _
      have read : m.memory.readBytes "mem_read_s" 2 (m.loadAddr inst) = _ := read _
      rw [if_neg (not_not.mpr (even rfl)), Memory.readS, read]
      rfl

/-- A store inside a chunk that does not put a byte out at the UART. -/
theorem rvStore_inside (op : StoreOp) (funct3 : RiscV.funct3 inst = op.funct3)
    (layered : m.memory.Layered) (inside : m.memory.Inside (m.storeAddr inst) op.count)
    (quiet : ¬ (op = .sb ∧ m.storeAddr inst = THR)) :
    ∃ memory, m.rvStore (rvDecode inst) = .ok { m with memory := memory }.next ∧
      Memory.Stored m.memory memory (m.storeAddr inst) op.count (m.x (RiscV.rs2 inst)).toNat := by
  have written : ∀ name data, ∃ i memory,
      m.memory.writeBytes name op.count (m.storeAddr inst) data = .ok (i, memory) ∧
        Memory.Stored m.memory memory (m.storeAddr inst) op.count data := fun name data =>
    Memory.writeBytes_stored name data layered inside (by cases op <;> decide) (by cases op <;> decide)
  unfold rvStore
  rw [rvDecode_funct3, funct3, get_rs1, get_rs2, rvDecode_sImm]
  cases op with
  | sb =>
      obtain ⟨i, memory, ran, stored⟩ := written "mem_write_b" ((m.x (RiscV.rs2 inst)).setWidth 8).toNat
      refine ⟨memory, ?_, stored.congr fun k small => ?_⟩
      · show (do
          let memory ← m.memory.writeB (m.storeAddr inst) ((m.x (RiscV.rs2 inst)).setWidth 8)
          return { m with memory := memory }.next) = _
        have ran : m.memory.writeBytes "mem_write_b" 1 (m.storeAddr inst) _ = _ := ran
        rw [Memory.writeB, ran, ok_bind]
        show (do
          let memory ← memory.ioWriteB i (m.storeAddr inst) _
          return { m with memory := memory }.next) = _
        rw [Memory.ioWriteB, if_neg fun thr => quiet ⟨rfl, thr⟩]
        rfl
      · obtain rfl : k = 0 := by change k < 1 at small; omega
        rw [BitVec.toNat_setWidth]
        omega
  | sh =>
      obtain ⟨i, memory, ran, stored⟩ := written "mem_write_s" ((m.x (RiscV.rs2 inst)).setWidth 16).toNat
      refine ⟨memory, ?_, stored.congr fun k small => ?_⟩
      · show (do
          let memory ← m.memory.writeS (m.storeAddr inst) ((m.x (RiscV.rs2 inst)).setWidth 16)
          return { m with memory := memory }.next) = _
        have ran : m.memory.writeBytes "mem_write_s" 2 (m.storeAddr inst) _ = _ := ran
        rw [Memory.writeS, ran]
        rfl
      · rw [BitVec.toNat_setWidth]
        change k < 2 at small
        interval_cases k <;> omega
  | sw =>
      obtain ⟨i, memory, ran, stored⟩ := written "mem_write_w" (m.x (RiscV.rs2 inst)).toNat
      refine ⟨memory, ?_, stored⟩
      show (do
        let memory ← m.memory.writeW (m.storeAddr inst) (m.x (RiscV.rs2 inst))
        return { m with memory := memory }.next) = _
      have ran : m.memory.writeBytes "mem_write_w" 4 (m.storeAddr inst) _ = _ := ran
      rw [Memory.writeW, ran]
      rfl

end Machine

/-- A store of a run. -/
structure Store where
  addr : BitVec 32
  count : Nat
  data : BitVec 32

/-- The byte that was stored last at an address, or the byte of the image. The latest store comes
first. -/
def lastByte (image : BitVec 32 → UInt8) : List Store → BitVec 32 → UInt8
  | [], a => image a
  | store :: earlier, a =>
      if (a - store.addr).toNat < store.count then
        UInt8.ofNat (store.data.toNat / 256 ^ (a - store.addr).toNat)
      else lastByte image earlier a

/-- The byte of an ELF file at an address: of the first segment that covers it, zero behind the
part that the file has. -/
def imageByte (phdrs : List Phdr) (rawdata : List UInt8) (a : BitVec 32) : UInt8 :=
  match (phdrs.filter Phdr.loads).find? fun phdr => decide ((phdr.chunk rawdata).Covers a) with
  | some phdr =>
      let offset := a.toNat - phdr.p_vaddr.toNat
      if offset < phdr.p_filesz.toNat then rawdata.getD (phdr.p_offset.toNat + offset) 0 else 0
  | none => 0

/-- No segment begins inside one that comes after it. Segments in ascending order of their
addresses are such, and disjoint ones in any order. -/
def Layered (phdrs : List Phdr) : Prop :=
  (phdrs.filter Phdr.loads).Pairwise fun earlier later =>
    ¬ (later.p_vaddr.toNat < earlier.p_vaddr.toNat ∧
      earlier.p_vaddr.toNat < later.p_vaddr.toNat + later.size.toNat)

/-- The machine, and what it has stored. -/
structure Session where
  machine : Machine
  stores : List Store

/-- What happens between two states of a session. -/
inductive Event where
  | load (op : LoadOp) (inst : BitVec 32)
  | store (op : StoreOp) (inst : BitVec 32)
  | other

/-- Loads and stores inside chunks other than the one of the UART, and anything that leaves the
memory. -/
inductive Session.Step : Session → Event → Session → Prop where
  | load {s : Session} {op : LoadOp} {inst : BitVec 32} {next : Machine}
      (funct3 : RiscV.funct3 inst = op.funct3)
      (inside : s.machine.memory.Inside (s.machine.loadAddr inst) op.count)
      (ran : s.machine.rvLoad (rvDecode inst) = .ok next) :
      Step s (.load op inst) ⟨next, s.stores⟩
  | store {s : Session} {op : StoreOp} {inst : BitVec 32} {next : Machine}
      (funct3 : RiscV.funct3 inst = op.funct3)
      (inside : s.machine.memory.Inside (s.machine.storeAddr inst) op.count)
      (quiet : ¬ (op = .sb ∧ s.machine.storeAddr inst = THR))
      (ran : s.machine.rvStore (rvDecode inst) = .ok next) :
      Step s (.store op inst)
        ⟨next, ⟨s.machine.storeAddr inst, op.count, s.machine.x (RiscV.rs2 inst)⟩ :: s.stores⟩
  | other {s : Session} (x : Reg → BitVec 32) (csr : BitVec 12 → BitVec 32) (pc : BitVec 32) :
      Step s .other ⟨⟨x, csr, pc, s.machine.memory⟩, s.stores⟩

/-- The sessions on a loaded ELF file. -/
def elfSystem (phdrs : List Phdr) (rawdata : List UInt8) : TransitionSystem Session Event where
  Initial s := memLoadElf phdrs rawdata = .ok s.machine.memory ∧ s.stores = []
  Step := Session.Step

section Loading

variable {phdrs : List Phdr} {rawdata : List UInt8}

/-- The chunks of the segments, in their order. -/
theorem load_chunks {start chunks : List Chunk}
    (ran : phdrs.foldlM (Phdr.load rawdata) start = .ok chunks) :
    chunks = start ++ (phdrs.filter Phdr.loads).map (Phdr.chunk · rawdata) := by
  induction phdrs generalizing start with
  | nil =>
      cases ran
      simp
  | cons phdr rest ih =>
      rw [List.foldlM_cons, bind_ok] at ran
      obtain ⟨middle, first, ran⟩ := ran
      rw [ih ran]
      unfold Phdr.load at first
      split at first
      · next loads =>
        split at first
        · cases first
        · cases first
          simp [loads]
      · next skipped =>
        cases first
        simp [skipped]

theorem memLoadElf_chunks {m : Memory} (loaded : memLoadElf phdrs rawdata = .ok m) :
    m.chunks = (phdrs.filter Phdr.loads).map (Phdr.chunk · rawdata) ++ [uartChunk] := by
  obtain ⟨chunks, ran, rest⟩ := bind_ok.mp loaded
  obtain rfl := Except.ok.inj rest
  rw [load_chunks ran, List.nil_append]

variable {m : Memory}

/-- The chunks before the one of the UART are those of the segments. -/
theorem memLoadElf_at (loaded : memLoadElf phdrs rawdata = .ok m) {i : Nat}
    (ram : i + 1 < m.chunks.length) :
    m.chunks[i]? = ((phdrs.filter Phdr.loads)[i]?).map (Phdr.chunk · rawdata) := by
  have chunks := memLoadElf_chunks loaded
  rw [chunks] at ram ⊢
  rw [List.length_append, List.length_singleton] at ram
  rw [List.getElem?_append_left (by omega), List.getElem?_map]

theorem memLoadElf_layered (loaded : memLoadElf phdrs rawdata = .ok m) (layered : Layered phdrs) :
    m.Layered := by
  intro i j c c' earlier ram place place'
  rw [memLoadElf_at loaded (by omega)] at place
  rw [memLoadElf_at loaded ram] at place'
  obtain ⟨phdr, here, rfl⟩ := Option.map_eq_some_iff.mp place
  obtain ⟨phdr', here', rfl⟩ := Option.map_eq_some_iff.mp place'
  obtain ⟨inside, rfl⟩ := List.getElem?_eq_some_iff.mp here
  obtain ⟨inside', rfl⟩ := List.getElem?_eq_some_iff.mp here'
  exact List.pairwise_iff_getElem.mp layered i j inside inside' earlier

/-- A loaded byte is the byte of the image. -/
theorem byteAt_loaded (loaded : memLoadElf phdrs rawdata = .ok m) {a : BitVec 32} {count : Nat}
    (inside : m.Inside a count) : m.byteAt a = some (imageByte phdrs rawdata a) := by
  obtain ⟨i, c, found, _, ram⟩ := inside
  obtain ⟨place, covers, first⟩ := Memory.findChunk_eq_iff.mp found
  rw [memLoadElf_at loaded ram] at place
  obtain ⟨phdr, here, rfl⟩ := Option.map_eq_some_iff.mp place
  have segment : (phdrs.filter Phdr.loads).find? (fun phdr => decide ((phdr.chunk rawdata).Covers a)) =
      some phdr := by
    obtain ⟨within, rfl⟩ := List.getElem?_eq_some_iff.mp here
    rw [List.find?_eq_some_iff_getElem]
    refine ⟨decide_eq_true covers, i, within, rfl, fun j earlier => ?_⟩
    have before := first j earlier _ (by
      rw [memLoadElf_at loaded (by omega), List.getElem?_eq_getElem (earlier.trans within)]
      rfl)
    simpa using before
  have limit : (phdr.chunk rawdata).limit = phdr.p_vaddr.toNat + phdr.size.toNat := rfl
  have offset := Memory.offset_eq covers
  change (phdr.chunk rawdata).offset a = a.toNat - phdr.p_vaddr.toNat at offset
  have within : a.toNat - phdr.p_vaddr.toNat < phdr.size.toNat := by
    have upper := covers.2.2
    have lower : phdr.p_vaddr.toNat ≤ a.toNat := covers.2.1
    omega
  rw [Memory.byteAt_of_found found, offset, imageByte, segment,
    Bytes.byte_eq (phdr.chunk rawdata).mem within]
  rfl

end Loading

section Runs

variable {phdrs : List Phdr} {rawdata : List UInt8} {s s' : Session} {event : Event}

/-- What holds in every state of a session. -/
structure Session.Coherent (phdrs : List Phdr) (rawdata : List UInt8) (s : Session) : Prop where
  layered : s.machine.memory.Layered
  bytes : ∀ {a : BitVec 32}, s.machine.memory.Inside a 1 →
    s.machine.memory.byteAt a = some (lastByte (imageByte phdrs rawdata) s.stores a)

/-- The bytes of an access are as recalled. -/
theorem Session.Coherent.access (coherent : s.Coherent phdrs rawdata) {addr : BitVec 32} {count : Nat}
    (inside : s.machine.memory.Inside addr count) {k : Nat} (within : k < count) :
    s.machine.memory.byteAt (addr + BitVec.ofNat 32 k) =
      some (lastByte (imageByte phdrs rawdata) s.stores (addr + BitVec.ofNat 32 k)) := by
  obtain ⟨i, c, found, contains, ram⟩ := inside
  have here := Memory.findChunk_add coherent.layered found contains ram within
  have covers := (Memory.findChunk_eq_iff.mp here).2.1
  exact coherent.bytes ⟨i, c, here, covers.2, ram⟩

theorem Session.Coherent.load (coherent : s.Coherent phdrs rawdata) {op : LoadOp} {inst : BitVec 32}
    (funct3 : RiscV.funct3 inst = op.funct3)
    (inside : s.machine.memory.Inside (s.machine.loadAddr inst) op.count)
    (even : op = .lhu → s.machine.loadAddr inst &&& 1 = 0) :
    s.machine.rvLoad (rvDecode inst) = .ok (s.machine.set (rvDecode inst).rd (op.extend
      (littleEndian op.count fun k =>
        lastByte (imageByte phdrs rawdata) s.stores (s.machine.loadAddr inst + BitVec.ofNat 32 k)))).next :=
  Machine.rvLoad_inside op funct3 coherent.layered inside even fun _ within =>
    coherent.access inside within

theorem Session.Coherent.stored (coherent : s.Coherent phdrs rawdata) {memory : Memory} {store : Store}
    (stored : Memory.Stored s.machine.memory memory store.addr store.count store.data.toNat)
    {x : Reg → BitVec 32} {csr : BitVec 12 → BitVec 32} {pc : BitVec 32} :
    Session.Coherent phdrs rawdata ⟨⟨x, csr, pc, memory⟩, store :: s.stores⟩ where
  layered := stored.spans.layered coherent.layered
  bytes := by
    intro a inside
    show memory.byteAt a = _
    rw [stored.byte, lastByte]
    split
    · rfl
    · exact coherent.bytes (stored.spans.symm.inside inside)

/-- A load leaves the memory. -/
theorem rvLoad_memory {m m' : Machine} {d : Decoded} (ran : m.rvLoad d = .ok m') :
    m'.memory = m.memory := by
  unfold Machine.rvLoad at ran
  dsimp only at ran
  split at ran
  case h_1 | h_2 | h_3 | h_4 =>
    obtain ⟨read, _, ran⟩ := bind_ok.mp ran
    obtain rfl := Except.ok.inj ran
    rfl
  case h_5 =>
    split at ran
    · cases ran
    · obtain ⟨read, _, ran⟩ := bind_ok.mp ran
      obtain rfl := Except.ok.inj ran
      rfl
  case h_6 => cases ran

theorem coherent_inductive (layered : Layered phdrs) :
    (elfSystem phdrs rawdata).Inductive (fun _ _ => True) (Session.Coherent phdrs rawdata) where
  initial := by
    rintro ⟨m, stores⟩ ⟨loaded, rfl⟩
    exact ⟨memLoadElf_layered loaded layered, fun inside => byteAt_loaded loaded inside⟩
  preserved := by
    intro s event s' coherent _ step
    cases step with
    | load funct3 inside ran =>
        have same := rvLoad_memory ran
        exact ⟨by rw [same]; exact coherent.layered, fun inside => by
          rw [same] at inside ⊢
          exact coherent.bytes inside⟩
    | store funct3 inside quiet ran =>
        obtain ⟨memory, ran', stored⟩ := Machine.rvStore_inside _ funct3 coherent.layered inside quiet
        rw [ran'] at ran
        cases ran
        exact coherent.stored stored
    | other x csr pc => exact ⟨coherent.layered, coherent.bytes⟩

/-- In every session, a load inside the segments returns the bytes that were stored last, or those
of the ELF file, and a store changes its own bytes and nothing else. -/
theorem session_coherent (layered : Layered phdrs) (run : (elfSystem phdrs rawdata).Reachable s) :
    (∀ (op : LoadOp) (inst : BitVec 32), RiscV.funct3 inst = op.funct3 →
      s.machine.memory.Inside (s.machine.loadAddr inst) op.count →
      (op = .lhu → s.machine.loadAddr inst &&& 1 = 0) →
      s.machine.rvLoad (rvDecode inst) = .ok (s.machine.set (rvDecode inst).rd (op.extend
        (littleEndian op.count fun k => lastByte (imageByte phdrs rawdata) s.stores
          (s.machine.loadAddr inst + BitVec.ofNat 32 k)))).next) ∧
    (∀ (op : StoreOp) (inst : BitVec 32), RiscV.funct3 inst = op.funct3 →
      s.machine.memory.Inside (s.machine.storeAddr inst) op.count →
      ¬ (op = .sb ∧ s.machine.storeAddr inst = THR) →
      ∃ memory : Memory, s.machine.rvStore (rvDecode inst) = .ok { s.machine with memory := memory }.next ∧
        memory.out = s.machine.memory.out ∧
        ∀ a, memory.byteAt a =
          if (a - s.machine.storeAddr inst).toNat < op.count then
            some (UInt8.ofNat ((s.machine.x (RiscV.rs2 inst)).toNat /
              256 ^ (a - s.machine.storeAddr inst).toNat))
          else s.machine.memory.byteAt a) := by
  have coherent := run.invariant (coherent_inductive layered)
  constructor
  · intro op inst funct3 inside even
    exact coherent.load funct3 inside even
  · intro op inst funct3 inside quiet
    obtain ⟨memory, ran, stored⟩ := Machine.rvStore_inside op funct3 coherent.layered inside quiet
    exact ⟨memory, ran, stored.out, stored.byte⟩

end Runs

/-- A machine at address 0 with an address in `x1` and `x2` all ones. -/
def startMachine (address : BitVec 32) (memory : Memory) : Machine where
  x r := if r = 1 then address else if r = 2 then 0xFFFFFFFF else 0
  csr := fun _ => 0
  pc := 0
  memory := memory

/-- Two segments of four bytes. -/
def twoSegments : List Phdr := [⟨PT_LOAD, 0, 0x1004, 4, 4⟩, ⟨PT_LOAD, 4, 0x1100, 4, 4⟩]

/-- The bytes of both. -/
def twoImages : List UInt8 := [0x12, 0x56, 0x34, 0x82, 1, 2, 3, 4]

/-- After `SH x2, 2(x1)`, `LW x3, 0(x1)` reads two bytes of the file and two that were stored, and
`LW x3, 252(x1)` the second segment. -/
theorem session_coherent_stored : ∃ s, (elfSystem twoSegments twoImages).Reachable s ∧
    s.stores.length = 1 ∧
    (s.machine.rvLoad (rvDecode 0x0000A183)).map (fun m => m.x 3) = .ok 0xFFFF5612 ∧
    (s.machine.rvLoad (rvDecode 0x0FC0A183)).map (fun m => m.x 3) = .ok 0x04030201 := by
  have start : (elfSystem twoSegments twoImages).Reachable
      ⟨startMachine 0x1004 ⟨twoSegments.map (Phdr.chunk · twoImages) ++ [uartChunk], []⟩, []⟩ :=
    .initial ⟨rfl, rfl⟩
  have run := start.step trivial (@Session.Step.store _ .sh 0x00209123 _ (by decide)
    ⟨0, _, rfl, by decide, by decide⟩ (by decide) rfl)
  have layered : Layered twoSegments := by unfold Layered; decide
  refine ⟨_, run, rfl, ?_, ?_⟩
  · rw [(session_coherent layered run).1 .lw 0x0000A183 (by decide) ⟨0, _, rfl, by decide, by decide⟩
      (by decide)]
    rfl
  · rw [(session_coherent layered run).1 .lw 0x0FC0A183 (by decide) ⟨1, _, rfl, by decide, by decide⟩
      (by decide)]
    rfl

/-- A segment of four bytes, and then a longer one around it. -/
def overlapping : List Phdr := [⟨PT_LOAD, 0, 0x1006, 0, 4⟩, ⟨PT_LOAD, 0, 0x1000, 0, 0x14⟩]

/-- A segment where the UART is. -/
def overUart : List Phdr := [⟨PT_LOAD, 0, 0x10000000, 0, 0x10⟩]

/-- `SW x2, 0(x1)` stores in the second segment, and `LBU x3, 2(x1)` reads the first one. In a
segment over the UART, `SB x2, 0(x1)` also sets bit 6 of the sixth byte. -/
theorem session_overlapping :
    (∃ s, (elfSystem overlapping []).Reachable s ∧
      s.machine.memory.Inside (s.machine.loadAddr 0x0020C183) 1 ∧
      (s.machine.rvLoad (rvDecode 0x0020C183)).map (fun m => m.x 3) = .ok 0 ∧
      lastByte (imageByte overlapping []) s.stores (s.machine.loadAddr 0x0020C183) = 0xFF) ∧
    ∃ m m' : Machine, memLoadElf overUart [] = .ok m.memory ∧
      m.memory.Inside (m.storeAddr 0x00208023) 1 ∧ m.rvStore (rvDecode 0x00208023) = .ok m' ∧
      m.memory.byteAt 0x10000005 = some 0 ∧ m'.memory.byteAt 0x10000005 = some 0x40 := by
  constructor
  · have start : (elfSystem overlapping []).Reachable
        ⟨startMachine 0x1004 ⟨overlapping.map (Phdr.chunk · []) ++ [uartChunk], []⟩, []⟩ :=
      .initial ⟨rfl, rfl⟩
    exact ⟨_, start.step trivial (@Session.Step.store _ .sw 0x0020A023 _ (by decide)
      ⟨1, _, rfl, by decide, by decide⟩ (by decide) rfl), ⟨0, _, rfl, by decide, by decide⟩, rfl, rfl⟩
  · exact ⟨startMachine 0x10000000 ⟨overUart.map (Phdr.chunk · []) ++ [uartChunk], []⟩, _, rfl,
      ⟨0, _, rfl, by decide, by decide⟩, rfl, rfl, rfl⟩

end Riscv2os.Emulator
