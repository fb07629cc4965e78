import Riscv2os.Semu.Bus

/-!
# Which device the bus selects

`bus_load` and `bus_store` try the same ranges in the same order. `RANGE_CHECK` looks at 32 bits of the
address only, and RAM gets everything above its base.
-/

namespace Riscv2os.Semu

open Riscv2os.Std

/-- The devices of the bus besides RAM. -/
inductive Device where
  | clint
  | plic
  | uart
  | virtio
deriving DecidableEq, Repr

namespace Device

/-- The first address of a device. -/
def base : Device → Word
  | clint => CLINT_BASE
  | plic => PLIC_BASE
  | uart => UART_BASE
  | virtio => VIRTIO_BASE

/-- The number of addresses of a device. -/
def size : Device → Word
  | clint => CLINT_SIZE
  | plic => PLIC_SIZE
  | uart => UART_SIZE
  | virtio => VIRTIO_SIZE

/-- An address of the device. -/
def Contains (d : Device) (addr : Nat) : Prop :=
  d.base.toNat ≤ addr ∧ addr < d.base.toNat + d.size.toNat

instance (d : Device) (addr : Nat) : Decidable (d.Contains addr) := inferInstanceAs (Decidable (_ ∧ _))

/-- The four ranges. -/
theorem contains_iff (d : Device) (addr : Nat) : d.Contains addr ↔
    match d with
    | clint => 0x2000000 ≤ addr ∧ addr < 0x2010000
    | plic => 0xc000000 ≤ addr ∧ addr < 0x10000000
    | uart => 0x10000000 ≤ addr ∧ addr < 0x10000100
    | virtio => 0x10001000 ≤ addr ∧ addr < 0x10002000 := by
  cases d <;> exact Iff.rfl

/-- No address belongs to two devices. -/
theorem contains_unique {d d' : Device} {addr : Nat} (one : d.Contains addr) (other : d'.Contains addr) :
    d = d' := by
  rw [contains_iff] at one other
  cases d <;> cases d' <;> simp only [reduceCtorEq] at one other ⊢ <;> omega

/-- The devices lie below RAM. -/
theorem contains_below {d : Device} {addr : Nat} (contains : d.Contains addr) : addr < 0x80000000 := by
  rw [contains_iff] at contains
  cases d <;> simp only at contains <;> omega

end Device

/-- `RANGE_CHECK` for a range in the lower 2 GiB sees an address modulo 2^32. -/
theorem rangeCheck_iff (x minx size : Word) (nonempty : 0 < size.toNat)
    (low : minx.toNat + size.toNat ≤ 2 ^ 31) :
    rangeCheck x minx size = true ↔
      minx.toNat ≤ x.toNat % 2 ^ 32 ∧ x.toNat % 2 ^ 32 < minx.toNat + size.toNat := by
  have wide := x.isLt
  unfold rangeCheck
  rw [BitVec.setWidth_or, BitVec.msb_or, Bool.not_eq_true', Bool.or_eq_false_iff, BitVec.msb_eq_decide,
    BitVec.msb_eq_decide, decide_eq_false_iff_not, decide_eq_false_iff_not, not_le, not_le,
    BitVec.toNat_setWidth, BitVec.toNat_setWidth, BitVec.toNat_sub, BitVec.toNat_sub, BitVec.toNat_sub,
    BitVec.toNat_add]
  have one : (1 : Word).toNat = 1 := rfl
  rw [one]
  omega

/-- `RANGE_CHECK` of a device. -/
theorem rangeCheck_contains (addr : Word) (d : Device) :
    rangeCheck addr d.base d.size = true ↔ d.Contains (addr.toNat % 2 ^ 32) := by
  cases d <;> exact rangeCheck_iff addr _ _ (by decide) (by decide)

/-- What an access is handed to. -/
inductive Target where
  | device (d : Device)
  | ram
  | nothing
deriving DecidableEq, Repr

namespace Target

/-- What a load gets where it is handed to: the device's own load, the bytes of RAM, or the access fault. -/
def load (target : Target) (addr : Word) (size : Nat) (bus : Bus) :
    Except Crash (Except Exception Word × Bus) :=
  match target with
  | device .clint => .ok (bus.clint.load addr size, bus)
  | device .plic => .ok (bus.plic.load addr size, bus)
  | device .uart => do
      let (result, uart) ← bus.uart.load addr size
      .ok (result, { bus with uart := uart })
  | device .virtio => .ok (bus.virtio.load addr size, bus)
  | ram => do
      let result ← ramLoad bus.ram addr size
      .ok (result, bus)
  | nothing => .ok (.error .loadAccessFault, bus)

/-- What a store does where it is handed to. -/
def store (target : Target) (addr : Word) (size : Nat) (value : Word) (bus : Bus) :
    Except Crash (Except Exception Unit × Bus) :=
  match target with
  | device .clint =>
      .ok ((bus.clint.store addr size value).1, { bus with clint := (bus.clint.store addr size value).2 })
  | device .plic =>
      .ok ((bus.plic.store addr size value).1, { bus with plic := (bus.plic.store addr size value).2 })
  | device .uart => do
      let (result, uart) ← bus.uart.store addr size value
      .ok (result, { bus with uart := uart })
  | device .virtio =>
      .ok ((bus.virtio.store addr size value).1,
        { bus with virtio := (bus.virtio.store addr size value).2 })
  | ram => do
      let (result, array) ← ramStore bus.ram addr size value
      .ok (result, { bus with ram := array })
  | nothing => .ok (.error .storeAmoAccessFault, bus)

end Target

namespace Bus

variable {addr : Word} {size : Nat} {bus : Bus} {value : Word}

/-- The tests of `bus_load` and `bus_store`. -/
def select (addr : Word) : Target :=
  if rangeCheck addr CLINT_BASE CLINT_SIZE then .device .clint
  else if rangeCheck addr PLIC_BASE PLIC_SIZE then .device .plic
  else if rangeCheck addr UART_BASE UART_SIZE then .device .uart
  else if rangeCheck addr VIRTIO_BASE VIRTIO_SIZE then .device .virtio
  else if RAM_BASE ≤ addr then .ram
  else .nothing

/-- `bus_load` hands the access to what is selected. -/
theorem load_select (addr : Word) (size : Nat) (bus : Bus) :
    (load addr size).run bus = (select addr).load addr size bus := by
  unfold select
  show (if rangeCheck addr CLINT_BASE CLINT_SIZE then _ else _) = _
  split
  · rfl
  split
  · rfl
  split
  · rfl
  split
  · rfl
  split <;> rfl

/-- `bus_store` hands the access to what is selected. -/
theorem store_select (addr : Word) (size : Nat) (value : Word) (bus : Bus) :
    (store addr size value).run bus = (select addr).store addr size value bus := by
  unfold select
  show (if rangeCheck addr CLINT_BASE CLINT_SIZE then _ else _) = _
  split
  · rfl
  split
  · rfl
  split
  · rfl
  split
  · rfl
  split <;> rfl

/-- The devices are selected by the lower half of the address. -/
theorem select_device_iff (addr : Word) (d : Device) :
    select addr = .device d ↔ d.Contains (addr.toNat % 2 ^ 32) := by
  have unique : ∀ {d'}, rangeCheck addr (Device.base d') (Device.size d') = true →
      (Target.device d' = .device d ↔ d.Contains (addr.toNat % 2 ^ 32)) := by
    intro d' found
    have contains := (rangeCheck_contains addr d').mp found
    rw [Target.device.injEq]
    constructor
    · rintro rfl
      exact contains
    · exact fun other => Device.contains_unique contains other
  unfold select
  split
  · next found => exact @unique .clint found
  next notClint =>
  split
  · next found => exact @unique .plic found
  next notPlic =>
  split
  · next found => exact @unique .uart found
  next notUart =>
  split
  · next found => exact @unique .virtio found
  next notVirtio =>
  have outside : ¬ d.Contains (addr.toNat % 2 ^ 32) := by
    rw [← rangeCheck_contains]
    cases d with
    | clint => exact notClint
    | plic => exact notPlic
    | uart => exact notUart
    | virtio => exact notVirtio
  refine iff_of_false ?_ outside
  split <;> exact Target.noConfusion

/-- Where no device is selected, everything above the base is RAM. -/
theorem select_rest {addr : Word} (outside : ∀ d : Device, ¬ d.Contains (addr.toNat % 2 ^ 32)) :
    select addr = if RAM_BASE ≤ addr then .ram else .nothing := by
  have refused : ∀ d : Device, ¬ rangeCheck addr d.base d.size = true := fun d =>
    mt (rangeCheck_contains addr d).mp (outside d)
  have clint : ¬ rangeCheck addr CLINT_BASE CLINT_SIZE = true := refused .clint
  have plic : ¬ rangeCheck addr PLIC_BASE PLIC_SIZE = true := refused .plic
  have uart : ¬ rangeCheck addr UART_BASE UART_SIZE = true := refused .uart
  have virtio : ¬ rangeCheck addr VIRTIO_BASE VIRTIO_SIZE = true := refused .virtio
  rw [select, if_neg clint, if_neg plic, if_neg uart, if_neg virtio]

/-- All bytes of an access lie in RAM. -/
def InRam (addr : Word) (size : Nat) : Prop :=
  ∃ n, sizeBytes size = some n ∧ RAM_BASE.toNat ≤ addr.toNat ∧ addr.toNat + n ≤ RAM_BASE.toNat + RAM_SIZE

/-- A load reads and a store writes the bytes of RAM from the address on, and nothing else happens. -/
def InMemory (addr : Word) (size n : Nat) : Prop := ∀ (bus : Bus) (value : Word),
  (load addr size).run bus =
      .ok (.ok (BitVec.ofNat 64 (bus.ram.load n (addr.toNat - RAM_BASE.toNat))), bus) ∧
    (store addr size value).run bus =
      .ok (.ok (), { bus with ram := bus.ram.store n (addr.toNat - RAM_BASE.toNat) value.toNat })

/-- The access gets to the device or to the RAM that its addresses belong to, and is refused otherwise. -/
structure Dispatched (addr : Word) (size : Nat) : Prop where
  device : ∀ d, select addr = .device d ↔ d.Contains addr.toNat
  ram : select addr = .ram → InRam addr size ∨ sizeBytes size = none
  handed : ∀ bus value, (load addr size).run bus = (select addr).load addr size bus ∧
    (store addr size value).run bus = (select addr).store addr size value bus
  memory : InRam addr size → ∀ n, sizeBytes size = some n → InMemory addr size n
  otherwise : (∀ d : Device, ¬ d.Contains addr.toNat) → ¬ InRam addr size → ∀ bus value,
    (load addr size).run bus = .ok (.error .loadAccessFault, bus) ∧
      (store addr size value).run bus = .ok (.error .storeAmoAccessFault, bus)
  inside : ∀ bus value, (load addr size).run bus ≠ .error .outOfBounds ∧
    (store addr size value).run bus ≠ .error .outOfBounds

/-- An address that a device has, or that is no alias of one and, where it is not below RAM, has all bytes of
the access in RAM. -/
def Regular (addr : Word) (size : Nat) : Prop :=
  (∃ d : Device, d.Contains addr.toNat) ∨
    (∀ d : Device, ¬ d.Contains (addr.toNat % 2 ^ 32)) ∧
      (addr.toNat < RAM_BASE.toNat ∨ InRam addr size ∨ sizeBytes size = none)

/-- An address of a device is its own lower half. -/
theorem contains_mod {d : Device} (contains : d.Contains addr.toNat) : addr.toNat % 2 ^ 32 = addr.toNat := by
  have := Device.contains_below contains
  omega

theorem Dispatched.regular (dispatched : Dispatched addr size) : Regular addr size := by
  by_cases own : ∃ d : Device, d.Contains addr.toNat
  · exact .inl own
  rw [not_exists] at own
  have apart : ∀ d : Device, ¬ d.Contains (addr.toNat % 2 ^ 32) := fun d same =>
    own d ((dispatched.device d).mp ((select_device_iff addr d).mpr same))
  refine .inr ⟨apart, ?_⟩
  by_cases below : addr.toNat < RAM_BASE.toNat
  · exact .inl below
  · refine .inr (dispatched.ram ?_)
    rw [select_rest apart, if_pos (BitVec.le_def.mpr (not_lt.mp below))]

/-- A call that returns has not left an array. -/
theorem ok_inside {α : Type} (value : α) : (.ok value : Except Crash α) ≠ .error .outOfBounds := by
  intro crash
  cases crash

/-- The loads and stores of devices stay in their arrays. -/
theorem device_inside {d : Device} (selected : select addr = .device d) (contains : d.Contains addr.toNat)
    (bus : Bus) (value : Word) : (load addr size).run bus ≠ .error .outOfBounds ∧
      (store addr size value).run bus ≠ .error .outOfBounds := by
  rw [load_select, store_select, selected]
  cases d with
  | clint | plic | virtio => exact ⟨ok_inside _, ok_inside _⟩
  | uart =>
      have index : (addr - UART_BASE).toNat < UART_SIZE.toNat := by
        have base : UART_BASE.toNat = 0x10000000 := rfl
        have count : UART_SIZE.toNat = 0x100 := rfl
        rw [Device.contains_iff] at contains
        simp only at contains
        rw [BitVec.toNat_sub]
        omega
      constructor
      · simp only [Target.load, Uart.load, index, if_true]
        split <;> exact ok_inside _
      · simp only [Target.store, Uart.store, index, if_true]
        split
        · exact ok_inside _
        split <;> exact ok_inside _

/-- An access to RAM with all bytes inside, or without bytes. -/
theorem ram_inside (selected : select addr = .ram) (fits : InRam addr size ∨ sizeBytes size = none) (bus : Bus)
    (value : Word) : (load addr size).run bus ≠ .error .outOfBounds ∧
      (store addr size value).run bus ≠ .error .outOfBounds := by
  rw [load_select, store_select, selected]
  simp only [Target.load, Target.store, ramLoad, ramStore]
  rcases fits with ⟨n, bytes, low, high⟩ | noBytes
  · have index : (addr - RAM_BASE).toNat + n ≤ RAM_SIZE := by
      have base : RAM_BASE.toNat = 0x80000000 := rfl
      rw [BitVec.toNat_sub]
      omega
    simp only [bytes, index, if_true]
    exact ⟨ok_inside _, ok_inside _⟩
  · simp only [noBytes]
    exact ⟨ok_inside _, ok_inside _⟩

/-- An access with all bytes in RAM reads and writes them. -/
theorem memory_inRam (inRam : InRam addr size) (n : Nat) (bytes : sizeBytes size = some n) :
    InMemory addr size n := by
  obtain ⟨m, bytes', low, high⟩ := inRam
  obtain rfl : m = n := Option.some.inj (bytes'.symm.trans bytes)
  have base : RAM_BASE.toNat = 0x80000000 := rfl
  have ramSize : RAM_SIZE = 0x8000000 := rfl
  have apart : ∀ d : Device, ¬ d.Contains (addr.toNat % 2 ^ 32) := by
    intro d contains
    have := Device.contains_below contains
    omega
  have index : (addr - RAM_BASE).toNat = addr.toNat - RAM_BASE.toNat := by
    rw [BitVec.toNat_sub]
    omega
  have fits : addr.toNat - RAM_BASE.toNat + m ≤ RAM_SIZE := by omega
  intro bus value
  rw [load_select, store_select, select_rest apart, if_pos (BitVec.le_def.mpr low)]
  simp only [Target.load, Target.store, ramLoad, ramStore, bytes, index, if_pos fits]
  exact ⟨rfl, rfl⟩

theorem Regular.dispatched (regular : Regular addr size) : Dispatched addr size := by
  rcases regular with ⟨d, own⟩ | ⟨apart, rest⟩
  · have selected : select addr = .device d := (select_device_iff addr d).mpr (by rwa [contains_mod own])
    constructor
    · intro d'
      rw [select_device_iff, contains_mod own]
    · intro ram
      rw [selected] at ram
      cases ram
    · exact fun bus value => ⟨load_select .., store_select ..⟩
    · exact memory_inRam
    · exact fun outside => absurd own (outside d)
    · exact device_inside selected own
  · have chosen := select_rest apart
    have outside : ∀ d : Device, ¬ d.Contains addr.toNat := fun d own =>
      apart d (by rwa [contains_mod own])
    have fits : select addr = .ram → InRam addr size ∨ sizeBytes size = none := by
      intro ram
      refine rest.resolve_left fun below => ?_
      rw [chosen, if_neg (fun above => absurd (BitVec.le_def.mp above) (not_le.mpr below))] at ram
      cases ram
    constructor
    · intro d
      refine iff_of_false (fun selected => ?_) (outside d)
      exact apart d ((select_device_iff addr d).mp selected)
    · exact fits
    · exact fun bus value => ⟨load_select .., store_select ..⟩
    · exact memory_inRam
    · intro _ notRam bus value
      by_cases above : RAM_BASE ≤ addr
      · have noBytes := (fits (chosen.trans (if_pos above))).resolve_left notRam
        rw [load_select, store_select, chosen, if_pos above]
        simp only [Target.load, Target.store, ramLoad, ramStore, noBytes]
        exact ⟨rfl, rfl⟩
      · rw [load_select, store_select, chosen, if_neg above]
        exact ⟨rfl, rfl⟩
    · intro bus value
      by_cases above : RAM_BASE ≤ addr
      · exact ram_inside (chosen.trans (if_pos above)) (fits (chosen.trans (if_pos above))) bus value
      · rw [load_select, store_select, chosen, if_neg above]
        exact ⟨ok_inside _, ok_inside _⟩

/-- The bus hands an access to what its address belongs to exactly if the address is no alias of a device 4 GiB
apart and does not run off the end of RAM. -/
theorem dispatched_iff (addr : Word) (size : Nat) : Dispatched addr size ↔ Regular addr size :=
  ⟨Dispatched.regular, Regular.dispatched⟩

/-- An address 4 GiB above the interrupt controller selects it, and the first address behind RAM leaves the
array. -/
theorem dispatched_not : ¬ Dispatched 0x10c000000 32 ∧ ¬ Dispatched 0x88000000 8 := by
  constructor
  · intro dispatched
    exact absurd ((dispatched.device .plic).mp rfl) (by decide)
  · intro dispatched
    exact (dispatched.inside (.new [] #[]) 0).1 rfl

end Bus

end Riscv2os.Semu
