import Riscv2os.Std.ByteMemory

/-!
# The bus of the machine emulator

RAM and the devices of `semu.c` with the functions that load from them and store to them. A function
that returns an `exception_t` keeps the state that it has reached; where the C program leaves an array
of the host or ends, there is no result.
-/

namespace Riscv2os.Semu

open Riscv2os.Std

/-- A 64-bit number. -/
abbrev Word := BitVec 64

/-- `exception_t`, without `OK`. -/
inductive Exception where
  | instructionAddressMisaligned
  | instructionAccessFault
  | illegalInstruction
  | breakpoint
  | loadAddressMisaligned
  | loadAccessFault
  | storeAmoAddressMisaligned
  | storeAmoAccessFault
  | ecallFromUMode
  | ecallFromSMode
  | ecallFromMMode
  | instructionPageFault
  | loadPageFault
  | storeAmoPageFault
deriving DecidableEq, Repr

namespace Exception

/-- The number of an exception. -/
def code : Exception → Nat
  | instructionAddressMisaligned => 0
  | instructionAccessFault => 1
  | illegalInstruction => 2
  | breakpoint => 3
  | loadAddressMisaligned => 4
  | loadAccessFault => 5
  | storeAmoAddressMisaligned => 6
  | storeAmoAccessFault => 7
  | ecallFromUMode => 8
  | ecallFromSMode => 9
  | ecallFromMMode => 11
  | instructionPageFault => 12
  | loadPageFault => 13
  | storeAmoPageFault => 15

/-- `exception_is_fatal`. -/
def isFatal : Exception → Bool
  | instructionAddressMisaligned
  | instructionAccessFault
  | loadAccessFault
  | storeAmoAddressMisaligned
  | storeAmoAccessFault => true
  | _ => false

end Exception

/-- Why the emulator itself does not go on. -/
inductive Crash where
  /-- A call of `fatal` with this message. -/
  | fatal (message : String)
  /-- An access outside an array of the host. -/
  | outOfBounds
  /-- A division by zero on the host. -/
  | divisionByZero
deriving DecidableEq, Repr

/-- A function that may return an exception, in a state that it keeps then. -/
abbrev Exec (σ : Type) := ExceptT Exception (StateT σ (Except Crash))

/-- The emulator ends. -/
def Exec.crash {σ α : Type} (c : Crash) : Exec σ α := ExceptT.mk fun _ => .error c

/-- A function that may return an exception and has no state. -/
def Exec.of {σ α : Type} (result : Except Exception α) : Exec σ α := ExceptT.mk (pure result)

namespace Exec

variable {σ α β : Type} {call : Exec σ α} {next : α → Exec σ β} {s s' : σ}

/-- A sequence of two calls, of which the first returns. -/
theorem run_bind_ok {a : α} (ran : call.run s = .ok (.ok a, s')) :
    (call >>= next).run s = (next a).run s' := by
  show ((call.run s) >>= fun result => ExceptT.bindCont next result.1 result.2) = _
  rw [ran]
  rfl

/-- A sequence of two calls, of which the first raises an exception. -/
theorem run_bind_error {e : Exception} (ran : call.run s = .ok (.error e, s')) :
    (call >>= next).run s = .ok (.error e, s') := by
  show ((call.run s) >>= fun result => ExceptT.bindCont next result.1 result.2) = _
  rw [ran]
  rfl

/-- A sequence of two calls, of which the first ends the emulator. -/
theorem run_bind_crash {c : Crash} (ran : call.run s = .error c) :
    (call >>= next).run s = .error c := by
  show ((call.run s) >>= fun result => ExceptT.bindCont next result.1 result.2) = _
  rw [ran]
  rfl

end Exec

def RAM_SIZE : Nat := 1024 * 1024 * 128
def RAM_BASE : Word := 0x80000000
def CLINT_BASE : Word := 0x2000000
def CLINT_SIZE : Word := 0x10000
def CLINT_MTIMECMP : Word := CLINT_BASE + 0x4000
def CLINT_MTIME : Word := CLINT_BASE + 0xbff8
def PLIC_BASE : Word := 0xc000000
def PLIC_SIZE : Word := 0x4000000
def PLIC_PENDING : Word := PLIC_BASE + 0x1000
def PLIC_SENABLE : Word := PLIC_BASE + 0x2080
def PLIC_SPRIORITY : Word := PLIC_BASE + 0x201000
def PLIC_SCLAIM : Word := PLIC_BASE + 0x201004
def UART_BASE : Word := 0x10000000
def UART_SIZE : Word := 0x100
def UART_RHR : Word := UART_BASE
def UART_THR : Word := UART_BASE
def UART_LSR : Word := UART_BASE + 5
def UART_LSR_RX : UInt8 := 1
def UART_LSR_TX : UInt8 := 0x20
def VIRTIO_BASE : Word := 0x10001000
def VIRTIO_SIZE : Word := 0x1000
def VIRTIO_MAGIC : Word := VIRTIO_BASE + 0x000
def VIRTIO_VERSION : Word := VIRTIO_BASE + 0x004
def VIRTIO_DEVICE_ID : Word := VIRTIO_BASE + 0x008
def VIRTIO_VENDOR_ID : Word := VIRTIO_BASE + 0x00c
def VIRTIO_DEVICE_FEATURES : Word := VIRTIO_BASE + 0x010
def VIRTIO_DRIVER_FEATURES : Word := VIRTIO_BASE + 0x020
def VIRTIO_GUEST_PAGE_SIZE : Word := VIRTIO_BASE + 0x028
def VIRTIO_QUEUE_SEL : Word := VIRTIO_BASE + 0x030
def VIRTIO_QUEUE_NUM_MAX : Word := VIRTIO_BASE + 0x034
def VIRTIO_QUEUE_NUM : Word := VIRTIO_BASE + 0x038
def VIRTIO_QUEUE_PFN : Word := VIRTIO_BASE + 0x040
def VIRTIO_QUEUE_NOTIFY : Word := VIRTIO_BASE + 0x050
def VIRTIO_STATUS : Word := VIRTIO_BASE + 0x070
def VIRTIO_VRING_DESC_SIZE : Word := 16
def VIRTIO_DESC_NUM : Word := 8

/-- `RANGE_CHECK`: the sign of the low 32 bits of `(x - minx) | (minx + size - 1 - x)`. -/
def rangeCheck (x minx size : Word) : Bool :=
  !(((x - minx) ||| (minx + size - 1 - x)).setWidth 32).msb

section Ram

/-! ## RAM -/

/-- The number of bytes of an access of this size in bits, where there is one. -/
def sizeBytes (size : Nat) : Option Nat :=
  if size = 64 then some 8
  else if size = 32 then some 4
  else if size = 16 then some 2
  else if size = 8 then some 1
  else none

/-- `ram_load`. -/
def ramLoad (ram : ByteMemory) (addr : Word) (size : Nat) : Except Crash (Except Exception Word) :=
  let index := (addr - RAM_BASE).toNat
  match sizeBytes size with
  | none => .ok (.error .loadAccessFault)
  | some n =>
      if index + n ≤ RAM_SIZE then .ok (.ok (BitVec.ofNat 64 (ram.load n index)))
      else .error .outOfBounds

/-- `ram_store`. -/
def ramStore (ram : ByteMemory) (addr : Word) (size : Nat) (value : Word) :
    Except Crash (Except Exception Unit × ByteMemory) :=
  let index := (addr - RAM_BASE).toNat
  match sizeBytes size with
  | none => .ok (.error .storeAmoAccessFault, ram)
  | some n =>
      if index + n ≤ RAM_SIZE then .ok (.ok (), ram.store n index value.toNat)
      else .error .outOfBounds

end Ram

/-- `struct clint`. -/
structure Clint where
  mtime : Word
  mtimecmp : Word

namespace Clint

def load (clint : Clint) (addr : Word) (size : Nat) : Except Exception Word :=
  if size ≠ 64 then .error .loadAccessFault
  else if addr = CLINT_MTIMECMP then .ok clint.mtimecmp
  else if addr = CLINT_MTIME then .ok clint.mtime
  else .ok 0

def store (clint : Clint) (addr : Word) (size : Nat) (value : Word) :
    Except Exception Unit × Clint :=
  if size ≠ 64 then (.error .storeAmoAccessFault, clint)
  else if addr = CLINT_MTIMECMP then (.ok (), { clint with mtimecmp := value })
  else if addr = CLINT_MTIME then (.ok (), { clint with mtime := value })
  else (.ok (), clint)

end Clint

/-- `struct plic`. -/
structure Plic where
  pending : Word
  senable : Word
  spriority : Word
  sclaim : Word

namespace Plic

def load (plic : Plic) (addr : Word) (size : Nat) : Except Exception Word :=
  if size ≠ 32 then .error .loadAccessFault
  else if addr = PLIC_PENDING then .ok plic.pending
  else if addr = PLIC_SENABLE then .ok plic.senable
  else if addr = PLIC_SPRIORITY then .ok plic.spriority
  else if addr = PLIC_SCLAIM then .ok plic.sclaim
  else .ok 0

def store (plic : Plic) (addr : Word) (size : Nat) (value : Word) : Except Exception Unit × Plic :=
  if size ≠ 32 then (.error .storeAmoAccessFault, plic)
  else if addr = PLIC_PENDING then (.ok (), { plic with pending := value })
  else if addr = PLIC_SENABLE then (.ok (), { plic with senable := value })
  else if addr = PLIC_SPRIORITY then (.ok (), { plic with spriority := value })
  else if addr = PLIC_SCLAIM then (.ok (), { plic with sclaim := value })
  else (.ok (), plic)

end Plic

/-- `struct uart`, and what was written to the standard output. -/
structure Uart where
  data : Nat → UInt8
  interrupting : Bool
  output : List UInt8

namespace Uart

/-- The index of `LSR` in the array. -/
def lsr : Nat := (UART_LSR - UART_BASE).toNat

/-- What `uart_thread_func` does with a character, when it does not wait. -/
def receive (uart : Uart) (c : UInt8) : Uart :=
  if uart.data lsr &&& UART_LSR_RX = 1 then uart
  else
    let data := Function.update uart.data 0 c
    { uart with
      data := Function.update data lsr (data lsr ||| UART_LSR_RX)
      interrupting := true }

def load (uart : Uart) (addr : Word) (size : Nat) :
    Except Crash (Except Exception Word × Uart) :=
  if size ≠ 8 then .ok (.error .loadAccessFault, uart)
  else
    let uart :=
      if addr = UART_RHR then
        { uart with data := Function.update uart.data lsr (uart.data lsr &&& ~~~UART_LSR_RX) }
      else uart
    let index := (addr - UART_BASE).toNat
    if index < UART_SIZE.toNat then .ok (.ok (BitVec.ofNat 64 (uart.data index).toNat), uart)
    else .error .outOfBounds

def store (uart : Uart) (addr : Word) (size : Nat) (value : Word) :
    Except Crash (Except Exception Unit × Uart) :=
  if size ≠ 8 then .ok (.error .storeAmoAccessFault, uart)
  else if addr = UART_THR then
    .ok (.ok (), { uart with output := uart.output ++ [UInt8.ofNat value.toNat] })
  else
    let index := (addr - UART_BASE).toNat
    if index < UART_SIZE.toNat then
      .ok (.ok (), { uart with data := Function.update uart.data index (UInt8.ofNat value.toNat) })
    else .error .outOfBounds

/-- `uart_is_interrupting`. -/
def isInterrupting (uart : Uart) : Bool × Uart :=
  (uart.interrupting, { uart with interrupting := false })

end Uart

/-- `struct virtio`. The disk is empty where there is no image. -/
structure Virtio where
  id : Word
  driver_features : BitVec 32
  page_size : BitVec 32
  queue_sel : BitVec 32
  queue_num : BitVec 32
  queue_pfn : BitVec 32
  queue_notify : BitVec 32
  status : BitVec 32
  disk : Array UInt8

namespace Virtio

def load (vio : Virtio) (addr : Word) (size : Nat) : Except Exception Word :=
  if size ≠ 32 then .error .loadAccessFault
  else if addr = VIRTIO_MAGIC then .ok 0x74726976
  else if addr = VIRTIO_VERSION then .ok 0x1
  else if addr = VIRTIO_DEVICE_ID then .ok 0x2
  else if addr = VIRTIO_VENDOR_ID then .ok 0x554d4551
  else if addr = VIRTIO_DEVICE_FEATURES then .ok 0
  else if addr = VIRTIO_DRIVER_FEATURES then .ok (vio.driver_features.setWidth 64)
  else if addr = VIRTIO_QUEUE_NUM_MAX then .ok 8
  else if addr = VIRTIO_QUEUE_PFN then .ok (vio.queue_pfn.setWidth 64)
  else if addr = VIRTIO_STATUS then .ok (vio.status.setWidth 64)
  else .ok 0

def store (vio : Virtio) (addr : Word) (size : Nat) (value : Word) :
    Except Exception Unit × Virtio :=
  let value := value.setWidth 32
  if size ≠ 32 then (.error .storeAmoAccessFault, vio)
  else if addr = VIRTIO_DEVICE_FEATURES then (.ok (), { vio with driver_features := value })
  else if addr = VIRTIO_GUEST_PAGE_SIZE then (.ok (), { vio with page_size := value })
  else if addr = VIRTIO_QUEUE_SEL then (.ok (), { vio with queue_sel := value })
  else if addr = VIRTIO_QUEUE_NUM then (.ok (), { vio with queue_num := value })
  else if addr = VIRTIO_QUEUE_PFN then (.ok (), { vio with queue_pfn := value })
  else if addr = VIRTIO_QUEUE_NOTIFY then (.ok (), { vio with queue_notify := value })
  else if addr = VIRTIO_STATUS then (.ok (), { vio with status := value })
  else (.ok (), vio)

/-- `virtio_is_interrupting`. -/
def isInterrupting (vio : Virtio) : Bool × Virtio :=
  if vio.queue_notify ≠ -1 then (true, { vio with queue_notify := -1 }) else (false, vio)

/-- `virtio_desc_addr`. -/
def descAddr (vio : Virtio) : Word := vio.queue_pfn.setWidth 64 * vio.page_size.setWidth 64

/-- `virtio_disk_read`. -/
def diskRead (vio : Virtio) (addr : Word) : Except Crash Word :=
  match vio.disk[addr.toNat]? with
  | some byte => .ok (BitVec.ofNat 64 byte.toNat)
  | none => .error .outOfBounds

/-- `virtio_disk_write`. -/
def diskWrite (vio : Virtio) (addr value : Word) : Except Crash Virtio :=
  if addr.toNat < vio.disk.size then
    .ok { vio with disk := vio.disk.setIfInBounds addr.toNat (UInt8.ofNat value.toNat) }
  else .error .outOfBounds

end Virtio

/-- `struct bus`. -/
structure Bus where
  ram : ByteMemory
  clint : Clint
  plic : Plic
  uart : Uart
  virtio : Virtio

namespace Bus

/-- `bus_new` with `ram_new` and the other devices. -/
def new (code : List UInt8) (disk : Array UInt8) : Bus where
  ram i := code.getD i 0
  clint := ⟨0, 0⟩
  plic := ⟨0, 0, 0, 0⟩
  uart := ⟨fun i => if i = Uart.lsr then UART_LSR_TX else 0, false, []⟩
  virtio := ⟨0, 0, 0, 0, 0, 0, -1, 0, disk⟩

/-- `bus_load`. -/
def load (addr : Word) (size : Nat) : Exec Bus Word := ExceptT.mk fun bus =>
  if rangeCheck addr CLINT_BASE CLINT_SIZE then .ok (bus.clint.load addr size, bus)
  else if rangeCheck addr PLIC_BASE PLIC_SIZE then .ok (bus.plic.load addr size, bus)
  else if rangeCheck addr UART_BASE UART_SIZE then do
    let (result, uart) ← bus.uart.load addr size
    .ok (result, { bus with uart := uart })
  else if rangeCheck addr VIRTIO_BASE VIRTIO_SIZE then .ok (bus.virtio.load addr size, bus)
  else if RAM_BASE ≤ addr then do
    let result ← ramLoad bus.ram addr size
    .ok (result, bus)
  else .ok (.error .loadAccessFault, bus)

/-- A load of 64 bits changes nothing: the devices with side effects do not have that size. -/
theorem load_wide (addr : Word) (bus : Bus) :
    (∃ c, (load addr 64).run bus = .error c) ∨ ∃ result, (load addr 64).run bus = .ok (result, bus) := by
  show (∃ c, (if rangeCheck addr CLINT_BASE CLINT_SIZE then _ else _) = _) ∨
    ∃ result, (if rangeCheck addr CLINT_BASE CLINT_SIZE then _ else _) = _
  split
  · exact .inr ⟨_, rfl⟩
  split
  · exact .inr ⟨_, rfl⟩
  split
  · exact .inr ⟨_, rfl⟩
  split
  · exact .inr ⟨_, rfl⟩
  split
  · cases loaded : ramLoad bus.ram addr 64 with
    | error c => exact .inl ⟨c, rfl⟩
    | ok result => exact .inr ⟨result, rfl⟩
  · exact .inr ⟨_, rfl⟩

/-- `bus_store`. -/
def store (addr : Word) (size : Nat) (value : Word) : Exec Bus Unit := ExceptT.mk fun bus =>
  if rangeCheck addr CLINT_BASE CLINT_SIZE then
    let (result, clint) := bus.clint.store addr size value
    .ok (result, { bus with clint := clint })
  else if rangeCheck addr PLIC_BASE PLIC_SIZE then
    let (result, plic) := bus.plic.store addr size value
    .ok (result, { bus with plic := plic })
  else if rangeCheck addr UART_BASE UART_SIZE then do
    let (result, uart) ← bus.uart.store addr size value
    .ok (result, { bus with uart := uart })
  else if rangeCheck addr VIRTIO_BASE VIRTIO_SIZE then
    let (result, virtio) := bus.virtio.store addr size value
    .ok (result, { bus with virtio := virtio })
  else if RAM_BASE ≤ addr then do
    let (result, ram) ← ramStore bus.ram addr size value
    .ok (result, { bus with ram := ram })
  else .ok (.error .storeAmoAccessFault, bus)

/-- A call that must not return an exception. -/
def must {α : Type} (call : Exec Bus α) (message : String) (bus : Bus) : Except Crash (α × Bus) := do
  let (result, bus) ← call.run bus
  match result with
  | .ok value => .ok (value, bus)
  | .error _ => .error (.fatal message)

/-- The loop that writes to the disk, at byte `i` with `count` to go. -/
def diskWrites (addr1 start : Word) : Nat → Word → Bus → Except Crash Bus
  | 0, _, bus => .ok bus
  | count + 1, i, bus => do
      let (data, bus) ← bus.must (load (addr1 + i) 8) "read from RAM"
      let virtio ← bus.virtio.diskWrite (start + i) data
      diskWrites addr1 start count (i + 1) { bus with virtio := virtio }

/-- The loop that reads from the disk, at byte `i` with `count` to go. -/
def diskReads (addr1 start : Word) : Nat → Word → Bus → Except Crash Bus
  | 0, _, bus => .ok bus
  | count + 1, i, bus => do
      let data ← bus.virtio.diskRead (start + i)
      let (_, bus) ← bus.must (store (addr1 + i) 8 data) "write to RAM"
      diskReads addr1 start count (i + 1) bus

/-- `bus_disk_access`. -/
def diskAccess (bus : Bus) : Except Crash Bus := do
  let desc_addr := bus.virtio.descAddr
  let avail_addr := desc_addr + 0x40
  let used_addr := desc_addr + 4096
  let (offset, bus) ← bus.must (load (avail_addr + 1) 16) "read offset"
  let (index, bus) ← bus.must (load (avail_addr + offset % VIRTIO_DESC_NUM + 2) 16) "read index"
  let desc_addr0 := desc_addr + VIRTIO_VRING_DESC_SIZE * index
  let (addr0, bus) ← bus.must (load desc_addr0 64) "read address field in descriptor"
  let (next0, bus) ← bus.must (load (desc_addr0 + 14) 16) "read next field in descriptor"
  let desc_addr1 := desc_addr + VIRTIO_VRING_DESC_SIZE * next0
  let (addr1, bus) ← bus.must (load desc_addr1 64) "read address field in descriptor"
  let (len1, bus) ← bus.must (load (desc_addr1 + 8) 32) "read length field in descriptor"
  let (flags1, bus) ← bus.must (load (desc_addr1 + 12) 16) "read flags field in descriptor"
  let (blk_sector, bus) ← bus.must (load (addr0 + 8) 64) "read sector field in virtio_blk_outhdr"
  let bus ←
    if flags1 &&& 2 = 0 then diskWrites addr1 (blk_sector * 512) len1.toNat 0 bus
    else diskReads addr1 (blk_sector * 512) len1.toNat 0 bus
  let new_id := bus.virtio.id + 1
  let bus := { bus with virtio := { bus.virtio with id := new_id } }
  let (_, bus) ← bus.must (store (used_addr + 2) 16 (new_id % 8)) "write to RAM"
  return bus

end Bus

end Riscv2os.Semu
