import Mathlib.Data.BitVec
import Riscv2os.Std.Bytes

/-!
# The memory of the emulator

`src/vm/riscv/memory.c`: the chunks of the loaded program and of the UART, how they are loaded, the
search for the chunk of an address and the accesses of one, two and four bytes. Addresses are
32-bit numbers, and the bounds are computed in 32 bits as the C code computes them. The
access itself goes to the array of the chunk; outside of it the C code has no meaning.
-/

namespace Riscv2os.Emulator

open Riscv2os.Std

/-- Why the emulator stops. -/
inductive Stop where
  /-- `ERROR`, with the format and the numbers that are printed. -/
  | error (format : String) (args : List (BitVec 32))
  /-- A division that the host traps. -/
  | trap
  /-- An access outside the array of a chunk. -/
  | outOfBounds
deriving DecidableEq, Repr

/-- A range of addresses with its bytes. -/
structure Chunk where
  begin_ : BitVec 32
  size : BitVec 32
  mem : Bytes size.toNat

/-- The chunks, and the bytes that the UART has put out. -/
structure Memory where
  chunks : List Chunk
  out : List UInt8 := []

/-- `UART + THR`. -/
def THR : BitVec 32 := 0x10000000

/-- The line status register. -/
def LSR : Nat := 0x05

def UART_LSR_EMPTY_MASK : UInt8 := 0x40

namespace Chunk

/-- `begin + size`. -/
def end_ (c : Chunk) : BitVec 32 := c.begin_ + c.size

/-- Whether `mem_find_chunk` takes the chunk. -/
def covers (c : Chunk) (addr : BitVec 32) : Bool := c.begin_ ≤ addr && addr < c.end_

/-- The index of an address in the array of the chunk. -/
def offset (c : Chunk) (addr : BitVec 32) : Nat := (addr - c.begin_).toNat

/-- Read `count` bytes from an index on, the least significant first. -/
def read (c : Chunk) (index count : Nat) : Except Stop Nat :=
  if index + count ≤ c.size.toNat then
    .ok ((List.range count).foldr (fun k high => (c.mem.byte (index + k)).toNat + 256 * high) 0)
  else .error .outOfBounds

/-- Store the low `count` bytes of `data` from an index on. -/
def write (c : Chunk) (index count data : Nat) : Except Stop Chunk :=
  if index + count ≤ c.size.toNat then
    .ok { c with
      mem := fun place =>
        if index ≤ place.val ∧ place.val < index + count then
          UInt8.ofNat (data / 256 ^ (place.val - index))
        else c.mem place }
  else .error .outOfBounds

end Chunk

namespace Memory

/-- The first chunk that covers an address, by its place in the table. -/
def findChunk (m : Memory) (addr : BitVec 32) : Except Stop (Nat × Chunk) :=
  match m.chunks.zipIdx.find? fun c => c.1.covers addr with
  | some (c, i) => .ok (i, c)
  | none => .error (.error "chunk not found, addr=0x%x!" [addr])

/-- The read of `count` bytes that the functions `mem_read_` share. -/
def readBytes (m : Memory) (name : String) (count : Nat) (addr : BitVec 32) : Except Stop Nat := do
  let (_, c) ← m.findChunk addr
  if addr + BitVec.ofNat 32 (count - 1) ≥ c.end_ then
    .error (.error (name ++ "() addr out of range!") [])
  else c.read (c.offset addr) count

/-- The write of `count` bytes that the functions `mem_write_` share. The first result is
the chunk that was found. -/
def writeBytes (m : Memory) (name : String) (count : Nat) (addr : BitVec 32) (data : Nat) :
    Except Stop (Nat × Memory) := do
  let (i, c) ← m.findChunk addr
  if addr + BitVec.ofNat 32 (count - 1) ≥ c.end_ then
    .error (.error (name ++ "() addr out of range!") [])
  else do
    let c ← c.write (c.offset addr) count data
    return (i, { m with chunks := m.chunks.set i c })

/-- `mem_read_w`. -/
def readW (m : Memory) (addr : BitVec 32) : Except Stop (BitVec 32) := do
  return BitVec.ofNat 32 (← m.readBytes "mem_read_w" 4 addr)

/-- `mem_read_s`. -/
def readS (m : Memory) (addr : BitVec 32) : Except Stop (BitVec 16) := do
  return BitVec.ofNat 16 (← m.readBytes "mem_read_s" 2 addr)

/-- `mem_read_b`. -/
def readB (m : Memory) (addr : BitVec 32) : Except Stop (BitVec 8) := do
  return BitVec.ofNat 8 (← m.readBytes "mem_read_b" 1 addr)

/-- `mem_write_w`. -/
def writeW (m : Memory) (addr data : BitVec 32) : Except Stop Memory := do
  return (← m.writeBytes "mem_write_w" 4 addr data.toNat).2

/-- `mem_write_s`. -/
def writeS (m : Memory) (addr : BitVec 32) (data : BitVec 16) : Except Stop Memory := do
  return (← m.writeBytes "mem_write_s" 2 addr data.toNat).2

/-- `io_write_b`: a byte written to the UART is put out, and the UART is ready again. -/
def ioWriteB (m : Memory) (i : Nat) (addr : BitVec 32) (data : BitVec 8) : Except Stop Memory :=
  if addr = THR then
    match m.chunks[i]? with
    | none => .error .outOfBounds
    | some c => do
        let status ← c.read LSR 1
        let c ← c.write LSR 1 (UInt8.ofNat status ||| UART_LSR_EMPTY_MASK).toNat
        return { chunks := m.chunks.set i c, out := m.out ++ [UInt8.ofNat data.toNat] }
  else .ok m

/-- `mem_write_b`. -/
def writeB (m : Memory) (addr : BitVec 32) (data : BitVec 8) : Except Stop Memory := do
  let (i, m) ← m.writeBytes "mem_write_b" 1 addr data.toNat
  m.ioWriteB i addr data

end Memory

/-- The fields of a program header that are read. -/
structure Phdr where
  p_type : BitVec 32
  p_offset : BitVec 32
  p_vaddr : BitVec 32
  p_filesz : BitVec 32
  p_memsz : BitVec 32
deriving DecidableEq, Repr

def PT_LOAD : BitVec 32 := 1

/-- The first address of the UART. -/
def UART : BitVec 32 := 0x10000000

def UART_CHUNK_SIZE : BitVec 32 := 0x10

namespace Phdr

/-- The size of the chunk. -/
def size (phdr : Phdr) : BitVec 32 := if phdr.p_memsz ≤ phdr.p_filesz then phdr.p_filesz else phdr.p_memsz

/-- `mem_add_chunk` of the segment: the chunk is zeroed, and what the file has is copied. -/
def chunk (phdr : Phdr) (rawdata : List UInt8) : Chunk where
  begin_ := phdr.p_vaddr
  size := phdr.size
  mem place := if place.val < phdr.p_filesz.toNat then rawdata.getD (phdr.p_offset.toNat + place.val) 0 else 0

/-- Whether a chunk is added. -/
def loads (phdr : Phdr) : Bool := phdr.p_type == PT_LOAD && phdr.size != 0

/-- One round of the loop of `mem_load_elf`. The segment is to be inside the file. -/
def load (rawdata : List UInt8) (chunks : List Chunk) (phdr : Phdr) : Except Stop (List Chunk) :=
  if phdr.loads then
    if 0 < phdr.p_filesz.toNat ∧ rawdata.length < phdr.p_offset.toNat + phdr.p_filesz.toNat then
      .error .outOfBounds
    else .ok (chunks ++ [phdr.chunk rawdata])
  else .ok chunks

end Phdr

/-- The chunk that `io_init` adds. The UART is ready. -/
def uartChunk : Chunk where
  begin_ := UART
  size := UART_CHUNK_SIZE
  mem place := if place.val = LSR then 0xFF else 0

/-- `mem_load_elf`. -/
def memLoadElf (phdrs : List Phdr) (rawdata : List UInt8) : Except Stop Memory := do
  let chunks ← phdrs.foldlM (Phdr.load rawdata) []
  return { chunks := chunks ++ [uartChunk] }

end Riscv2os.Emulator
