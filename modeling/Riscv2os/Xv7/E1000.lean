import Riscv2os.Std.ByteMemory
import Riscv2os.Std.RingBuffer
import Riscv2os.Std.TransitionSystem
import Riscv2os.Xv7.NetStack

/-!
# The transmit ring of the network device

`e1000_transmit` store by store, while the device consumes descriptors from `TDH` to `TDT` and others
write to the memory that the driver does not have. The histories of what was accepted, sent and freed
are kept beside the ring. The driver relies on the bit DD of the next descriptor to see that the ring
is full, and never clears it.
-/

namespace Riscv2os.Xv7.E1000

open Riscv2os.Std

def E1000_TXD_STAT_DD : UInt8 := 0x01

theorem txRingSize_ne : NeZero TX_RING_SIZE := ⟨by decide⟩

attribute [local instance] txRingSize_ne

/-- `struct tx_desc`. -/
structure TxDesc where
  addr : Nat
  length : Nat
  cso : UInt8
  cmd : UInt8
  status : UInt8
  css : UInt8
  special : BitVec 16
deriving DecidableEq

namespace TxDesc

/-- `d.addr = addr`. -/
def setAddr (d : TxDesc) (addr : Nat) : TxDesc := { d with addr := addr }

/-- `d.length = length`. -/
def setLength (d : TxDesc) (length : Nat) : TxDesc := { d with length := length % 2 ^ 16 }

/-- `d.cmd = cmd`. -/
def setCmd (d : TxDesc) (cmd : UInt8) : TxDesc := { d with cmd := cmd }

/-- The device sets DD. -/
def setDone (d : TxDesc) : TxDesc := { d with status := d.status ||| E1000_TXD_STAT_DD }

theorem setDone_status (d : TxDesc) : d.setDone.status &&& E1000_RXD_STAT_DD ≠ 0 := by
  show (d.status ||| E1000_TXD_STAT_DD) &&& E1000_RXD_STAT_DD ≠ 0
  have absorbed : (d.status ||| E1000_TXD_STAT_DD) &&& E1000_RXD_STAT_DD = E1000_RXD_STAT_DD := by
    apply UInt8.toBitVec_inj.mp
    apply BitVec.eq_of_getLsbD_eq
    intro i _
    rw [UInt8.toBitVec_and, UInt8.toBitVec_or, BitVec.getLsbD_and, BitVec.getLsbD_or]
    exact Bool.and_eq_right_iff_imp.mpr fun set => Bool.or_eq_true_iff.mpr (.inr set)
  rw [absorbed]
  decide

end TxDesc

/-- A packet buffer, which is a page with the packet somewhere in it. -/
structure TxMbuf where
  page : Nat
  head : Nat
  len : Nat
  low : page ≤ head
  high : head + len ≤ page + PGSIZE
deriving DecidableEq

/-- The next store of a call of `e1000_transmit`. -/
inductive TxPhase where
  | free
  | mbuf
  | addr
  | length
  | cmd
  | tail
deriving DecidableEq

/-- A call that has the lock, with the packet as it was handed over. -/
structure TxCall where
  phase : TxPhase
  m : TxMbuf
  desc_pos : Fin TX_RING_SIZE
  packet : List UInt8

/-- The ring, the two registers and the memory. The device has fetched at most one descriptor that it
is not done with. -/
structure TxRing where
  mem : ByteMemory
  tx_ring : Fin TX_RING_SIZE → TxDesc
  tx_mbufs : Fin TX_RING_SIZE → Option TxMbuf
  tdt : Fin TX_RING_SIZE
  tdh : Fin TX_RING_SIZE
  fetched : Option TxDesc
  call : Option TxCall
  /-- The calls that returned 0. -/
  accepted : List (TxMbuf × List UInt8)
  sent : List (List UInt8)
  freed : List TxMbuf

/-- What can happen. -/
inductive TxLabel where
  /-- A call gets the lock and tests the next descriptor. -/
  | transmit (m : TxMbuf)
  /-- The next store of the call. -/
  | store
  /-- The device fetches the descriptor at `TDH`. -/
  | fetch
  /-- The device has sent the packet and sets DD. -/
  | done
  /-- Stores of others, after which the memory is this one. -/
  | write (mem : ByteMemory)

namespace TxRing

/-- The bytes of a range. -/
def bytesAt (mem : ByteMemory) (addr length : Nat) : List UInt8 :=
  (List.range length).map fun k => mem (addr + k)

/-- `(desc_pos + 1) % TX_RING_SIZE`. -/
def after (desc_pos : Fin TX_RING_SIZE) : Fin TX_RING_SIZE := Fin.ofNat TX_RING_SIZE (desc_pos + 1)

/-- The transmit part of `e1000_init`. -/
def e1000Init (mem : ByteMemory) : TxRing where
  mem := mem
  tx_ring _ := ⟨0, 0, 0, 0, E1000_TXD_STAT_DD, 0, 0⟩
  tx_mbufs _ := none
  tdt := 0
  tdh := 0
  fetched := none
  call := none
  accepted := []
  sent := []
  freed := []

/-- The test for overflow, after which the call returns -1. -/
def refuses (s : TxRing) : Bool := (s.tx_ring s.tdt).status &&& E1000_RXD_STAT_DD == 0

/-- Change the descriptor of a call. -/
def setDesc (s : TxRing) (c : TxCall) (d : TxDesc) (next : TxPhase) : TxRing :=
  { s with
    tx_ring := Function.update s.tx_ring c.desc_pos d
    call := some { c with phase := next } }

/-- The next store of a call. -/
def store (s : TxRing) (c : TxCall) : TxRing :=
  match c.phase with
  | .free =>
      { s with
        freed := s.freed ++ (s.tx_mbufs c.desc_pos).toList
        call := some { c with phase := .mbuf } }
  | .mbuf =>
      { s with
        tx_mbufs := Function.update s.tx_mbufs c.desc_pos (some c.m)
        call := some { c with phase := .addr } }
  | .addr => s.setDesc c ((s.tx_ring c.desc_pos).setAddr c.m.head) .length
  | .length => s.setDesc c ((s.tx_ring c.desc_pos).setLength c.m.len) .cmd
  | .cmd => s.setDesc c ((s.tx_ring c.desc_pos).setCmd (E1000_TXD_CMD_RS ||| E1000_TXD_CMD_EOP)) .tail
  | .tail =>
      { s with
        tdt := after c.desc_pos
        call := none
        accepted := s.accepted ++ [(c.m, c.packet)] }

/-- The device has sent the packet of the descriptor that it fetched. -/
def sendDone (s : TxRing) (d : TxDesc) : TxRing :=
  { s with
    tx_ring := Function.update s.tx_ring s.tdh (s.tx_ring s.tdh).setDone
    fetched := none
    tdh := after s.tdh
    sent := s.sent ++ [bytesAt s.mem d.addr d.length] }

/-- One step. -/
def step (s : TxRing) : TxLabel → Option TxRing
  | .transmit m =>
      match s.call with
      | some _ => none
      | none =>
          if s.refuses then some s
          else some { s with call := some ⟨.free, m, s.tdt, bytesAt s.mem m.head m.len⟩ }
  | .store => s.call.map s.store
  | .fetch =>
      if s.fetched.isNone ∧ s.tdh ≠ s.tdt then some { s with fetched := some (s.tx_ring s.tdh) }
      else none
  | .done => s.fetched.map s.sendDone
  | .write mem => some { s with mem := mem }

/-- The packet buffers that the driver has: those that were handed over and not freed. -/
def owned (s : TxRing) : List TxMbuf :=
  (s.accepted.map Prod.fst).drop s.freed.length ++ (s.call.map TxCall.m).toList

/-- What the rest of the kernel does: a call hands over a packet buffer that the driver does not have,
and nobody else stores into those that it has. -/
def Allowed (s : TxRing) : TxLabel → Prop
  | .transmit m => ∀ old ∈ s.owned, old.page ≠ m.page
  | .write mem => ∀ b, mem b ≠ s.mem b → ∀ old ∈ s.owned, b < old.page ∨ old.page + PGSIZE ≤ b
  | _ => True

/-- The ring as the device starts it. -/
def system : TransitionSystem TxRing TxLabel where
  Initial s := ∃ mem, s = e1000Init mem
  Step s label s' := s.step label = some s'

/-- The device has not finished with a descriptor: it was handed over and its packet is not sent. -/
def Pending (s : TxRing) (i : Fin TX_RING_SIZE) : Prop :=
  ∃ k, s.sent.length ≤ k ∧ k < s.accepted.length ∧ i = Fin.ofNat TX_RING_SIZE k

/-- There is no descriptor left that can be handed to the device without `TDT` meeting `TDH`. -/
def Full (s : TxRing) : Prop := after s.tdt = s.tdh

/-- The device goes on by itself. -/
def Device (_ : TxRing) : TxLabel → Prop
  | .fetch | .done => True
  | _ => False

/-- What the driver promises where calls are made as `allowed`. -/
structure Promises (allowed : TxRing → TxLabel → Prop) (s : TxRing) : Prop where
  /-- Packets are sent in the order of the calls that accepted them, each at most once and with the
  bytes that it had. -/
  inOrder : s.sent <+: s.accepted.map Prod.snd
  /-- The device sends them all. -/
  allSent : ∃ s', system.StepsUnder Device s s' ∧ s'.accepted = s.accepted ∧
    s'.sent = s.accepted.map Prod.snd
  /-- Packet buffers are freed in the order of the calls, each at most once, and after they were
  sent. -/
  freedOnce : s.freed <+: s.accepted.map Prod.fst ∧ s.freed.length ≤ s.sent.length
  /-- What a step frees is not a buffer that the device still needs. -/
  freesDone : ∀ label s' m, s.step label = some s' → s'.freed = s.freed ++ [m] →
    ∀ old ∈ (s.accepted.map Prod.fst).drop s.sent.length, old.page ≠ m.page
  /-- A call stores only into a descriptor that the device has finished with. -/
  overwrites : ∀ c, s.call = some c → ¬ s.Pending c.desc_pos
  /-- A packet is refused exactly when the ring is full. -/
  refuses_iff : ∀ m, allowed s (.transmit m) → s.call = none → (s.refuses = true ↔ s.Full)

/-- Calls are made while there is room. -/
def WithRoom (s : TxRing) (label : TxLabel) : Prop :=
  s.Allowed label ∧ ∀ m, label = .transmit m → ¬ s.Full

/-! ## The invariant -/

/-- How many stores of the call are done. -/
def stage (s : TxRing) : Nat :=
  match s.call with
  | none => 0
  | some c => c.phase.ctorIdx

/-- What holds between the ring and the histories. -/
structure Sound (s : TxRing) : Prop where
  tdt : s.tdt = Fin.ofNat TX_RING_SIZE s.accepted.length
  tdh : s.tdh = Fin.ofNat TX_RING_SIZE s.sent.length
  le : s.sent.length ≤ s.accepted.length
  room : s.accepted.length < s.sent.length + TX_RING_SIZE
  sent : s.sent = (s.accepted.map Prod.snd).take s.sent.length
  freed : s.freed = (s.accepted.map Prod.fst).take s.freed.length
  freedCount : s.freed.length = s.accepted.length + (if s.stage = 0 then 0 else 1) - TX_RING_SIZE
  status : ∀ i, (s.tx_ring i).status &&& E1000_RXD_STAT_DD ≠ 0
  /-- The buffers that are not freed are in the table. -/
  kept : ∀ k m p, s.accepted[k]? = some (m, p) → s.freed.length ≤ k →
    s.tx_mbufs (Fin.ofNat TX_RING_SIZE k) = some m ∧ bytesAt s.mem m.head m.len = p
  empty : ∀ k, s.accepted.length ≤ k → k < TX_RING_SIZE → s.stage = 0 ∨ k ≠ s.accepted.length →
    s.tx_mbufs (Fin.ofNat TX_RING_SIZE k) = none
  /-- The descriptors that are not finished have the addresses and lengths of the packets. -/
  queued : ∀ k m p, s.accepted[k]? = some (m, p) → s.sent.length ≤ k →
    (s.tx_ring (Fin.ofNat TX_RING_SIZE k)).addr = m.head ∧
      (s.tx_ring (Fin.ofNat TX_RING_SIZE k)).length = m.len
  fetched : ∀ d, s.fetched = some d → ∃ m p, s.accepted[s.sent.length]? = some (m, p) ∧
    d.addr = m.head ∧ d.length = m.len
  pages : (s.owned.map TxMbuf.page).Nodup
  call : ∀ c, s.call = some c → c.desc_pos = s.tdt ∧
    s.accepted.length + 1 < s.sent.length + TX_RING_SIZE ∧
    bytesAt s.mem c.m.head c.m.len = c.packet ∧
    (2 ≤ s.stage → s.tx_mbufs c.desc_pos = some c.m) ∧
    (3 ≤ s.stage → (s.tx_ring c.desc_pos).addr = c.m.head) ∧
    (4 ≤ s.stage → (s.tx_ring c.desc_pos).length = c.m.len)

namespace Sound

variable {s s' : TxRing} {k : Nat} {m : TxMbuf} {p : List UInt8} {c : TxCall}

theorem initial (mem : ByteMemory) : (e1000Init mem).Sound where
  tdt := rfl
  tdh := rfl
  le := le_rfl
  room := Nat.zero_lt_succ _
  sent := rfl
  freed := rfl
  freedCount := rfl
  status _ := show E1000_TXD_STAT_DD &&& E1000_RXD_STAT_DD ≠ 0 by decide
  kept k m p inside := by simp [e1000Init] at inside
  empty _ _ _ _ := rfl
  queued k m p inside := by simp [e1000Init] at inside
  fetched d none_ := by simp [e1000Init] at none_
  pages := by simp [owned, e1000Init]
  call c none_ := by simp [e1000Init] at none_

/-- Freed buffers were sent. -/
theorem freed_le (sound : s.Sound) : s.freed.length ≤ s.sent.length := by
  have count := sound.freedCount
  have room := sound.room
  change s.accepted.length < s.sent.length + 16 at room
  change _ = _ - 16 at count
  split at count <;> omega

/-- A position is not the place of a later one less than a round ahead. -/
theorem apart {n : Nat} (before : k < n) (near : n < k + 16) :
    Fin.ofNat TX_RING_SIZE k ≠ Fin.ofNat TX_RING_SIZE n := fun same =>
  absurd (RingBuffer.ofNat_inj before.le near same) before.ne

/-- The position after the one of a number. -/
theorem after_ofNat (n : Nat) :
    after (Fin.ofNat TX_RING_SIZE n) = Fin.ofNat TX_RING_SIZE (n + 1) := by
  apply Fin.ext
  simp [after]

theorem not_refuses (sound : s.Sound) : s.refuses = false :=
  beq_eq_false_iff_ne.mpr (sound.status s.tdt)

theorem lt_of_getElem? (inside : s.accepted[k]? = some (m, p)) : k < s.accepted.length :=
  (List.getElem?_eq_some_iff.mp inside).1

theorem full_iff (sound : s.Sound) :
    s.Full ↔ s.accepted.length + 1 = s.sent.length + TX_RING_SIZE := by
  have le := sound.le
  have room := sound.room
  change s.accepted.length < s.sent.length + 16 at room
  rw [Full, sound.tdt, sound.tdh, after_ofNat]
  constructor
  · intro same
    have remainders : (s.accepted.length + 1) % 16 = s.sent.length % 16 := congrArg Fin.val same
    change s.accepted.length + 1 = s.sent.length + 16
    omega
  · intro full
    apply Fin.ext
    change (s.accepted.length + 1) % 16 = s.sent.length % 16
    change s.accepted.length + 1 = s.sent.length + 16 at full
    omega

/-- A call is accepted. -/
theorem transmit (sound : s.Sound) (idle : s.call = none) (room : ¬ s.Full)
    (fresh : ∀ old ∈ s.owned, old.page ≠ m.page) :
    ({ s with call := some ⟨.free, m, s.tdt, bytesAt s.mem m.head m.len⟩ } : TxRing).Sound := by
  have stage : s.stage = 0 := by rw [TxRing.stage, idle]
  have full := mt sound.full_iff.mpr room
  have before := sound.room
  refine { sound with freedCount := ?_, empty := ?_, pages := ?_, call := ?_ }
  · have count := sound.freedCount
    rw [stage] at count
    exact count
  · intro k high low _
    exact sound.empty k high low (.inl stage)
  · have pages := sound.pages
    simp only [owned, idle, Option.map_none, Option.toList_none, List.append_nil] at pages fresh
    simp only [owned, Option.map_some, Option.toList_some, List.map_append, List.map_cons, List.map_nil]
    refine List.nodup_append.mpr ⟨pages, List.nodup_singleton _, ?_⟩
    intro page member other isNew
    obtain ⟨old, inside, rfl⟩ := List.mem_map.mp member
    rw [List.mem_singleton] at isNew
    rw [isNew]
    exact fresh old inside
  · rintro c ⟨⟩
    refine ⟨rfl, ?_, rfl, ?_, ?_, ?_⟩
    · change s.accepted.length + 1 < s.sent.length + 16
      change s.accepted.length < s.sent.length + 16 at before
      change ¬ s.accepted.length + 1 = s.sent.length + 16 at full
      omega
    all_goals
      intro late
      change _ ≤ 0 at late
      omega

/-- The device fetches the next descriptor. -/
theorem fetch (sound : s.Sound) (more : s.tdh ≠ s.tdt) :
    ({ s with fetched := some (s.tx_ring s.tdh) } : TxRing).Sound := by
  have inside : s.sent.length < s.accepted.length := by
    refine lt_of_le_of_ne sound.le fun same => more ?_
    rw [sound.tdh, sound.tdt, same]
  refine { sound with fetched := ?_ }
  rintro d ⟨⟩
  refine ⟨_, _, List.getElem?_eq_getElem inside, ?_⟩
  rw [sound.tdh]
  exact sound.queued _ _ _ (List.getElem?_eq_getElem inside) le_rfl

/-- The device sends the packet that it fetched. -/
theorem done {d : TxDesc} (sound : s.Sound) (fetched : s.fetched = some d) :
    (s.sendDone d).Sound := by
  obtain ⟨m, p, inside, addr, length⟩ := sound.fetched d fetched
  have packet := (sound.kept _ m p inside sound.freed_le).2
  have below := lt_of_getElem? inside
  have room := sound.room
  have sent : s.sent ++ [bytesAt s.mem d.addr d.length] =
      (s.accepted.map Prod.snd).take (s.sent.length + 1) := by
    rw [List.take_add_one, ← sound.sent, List.getElem?_map, inside, addr, length, packet]
    rfl
  have same : ∀ i, ((s.sendDone d).tx_ring i).addr = (s.tx_ring i).addr ∧
      ((s.sendDone d).tx_ring i).length = (s.tx_ring i).length := by
    intro i
    by_cases at_ : i = s.tdh
    · subst at_
      simp [sendDone, TxDesc.setDone]
    · simp [sendDone, Function.update_of_ne at_]
  have count : (s.sendDone d).sent.length = s.sent.length + 1 := by
    simp [sendDone]
  refine { sound with
    tdh := ?_
    le := ?_
    room := ?_
    sent := ?_
    status := ?_
    queued := ?_
    fetched := ?_
    call := ?_ }
  · show after s.tdh = _
    rw [count, sound.tdh, after_ofNat]
  · rw [count]
    exact below
  · rw [count]
    exact Nat.lt_of_lt_of_le room (by omega)
  · rw [count]
    exact sent
  · intro i
    have set := sound.status i
    show (Function.update s.tx_ring s.tdh (s.tx_ring s.tdh).setDone i).status &&& E1000_RXD_STAT_DD ≠ 0
    by_cases at_ : i = s.tdh
    · subst at_
      rw [Function.update_self]
      exact TxDesc.setDone_status _
    · rw [Function.update_of_ne at_]
      exact set
  · intro k m p member high
    rw [count] at high
    rw [(same _).1, (same _).2]
    exact sound.queued k m p member (by omega)
  · rintro d ⟨⟩
  · intro c called
    obtain ⟨pos, fits, packet, mbuf, addr, length⟩ := sound.call c called
    rw [(same _).1, (same _).2, count]
    exact ⟨pos, Nat.lt_of_lt_of_le fits (by omega), packet, mbuf, addr, length⟩

/-- Stores of others. -/
theorem write {mem : ByteMemory} (sound : s.Sound)
    (outside : ∀ b, mem b ≠ s.mem b → ∀ old ∈ s.owned, b < old.page ∨ old.page + PGSIZE ≤ b) :
    ({ s with mem := mem } : TxRing).Sound := by
  have same : ∀ m ∈ s.owned, bytesAt mem m.head m.len = bytesAt s.mem m.head m.len := by
    intro m member
    refine List.map_congr_left fun k inside => ?_
    by_contra different
    have apart := outside _ different m member
    have low := m.low
    have high := m.high
    rw [List.mem_range] at inside
    omega
  refine { sound with kept := ?_, call := ?_ }
  · intro k m p inside notFreed
    obtain ⟨table, packet⟩ := sound.kept k m p inside notFreed
    refine ⟨table, (same m ?_).trans packet⟩
    refine List.mem_append_left _ (List.mem_iff_getElem?.mpr ⟨k - s.freed.length, ?_⟩)
    rw [List.getElem?_drop, Nat.add_sub_cancel' notFreed, List.getElem?_map, inside]
    rfl
  · intro c called
    obtain ⟨pos, fits, packet, rest⟩ := sound.call c called
    refine ⟨pos, fits, (same c.m ?_).trans packet, rest⟩
    have called : s.call = some c := called
    exact List.mem_append_right _ (by rw [called]; simp)

section Store

variable (sound : s.Sound) (called : s.call = some c)
include called

theorem stage_eq : s.stage = c.phase.ctorIdx := by
  rw [stage, called]

theorem owned_eq : s.owned = (s.accepted.map Prod.fst).drop s.freed.length ++ [c.m] := by
  rw [owned, called]
  rfl

include sound

theorem desc_pos : c.desc_pos = Fin.ofNat TX_RING_SIZE s.accepted.length := by
  rw [(sound.call c called).1, sound.tdt]

/-- `mbuffree` of the buffer whose descriptor is used again. -/
theorem store_free (phase : c.phase = .free) : (s.store c).Sound := by
  have stage : s.stage = 0 := by rw [stage_eq called, phase]; rfl
  have pos := desc_pos sound called
  have count : s.freed.length = s.accepted.length - 16 := by
    have before := sound.freedCount
    rwa [if_pos stage] at before
  have effect : s.store c = { s with
      freed := s.freed ++ (s.tx_mbufs c.desc_pos).toList
      call := some { c with phase := .mbuf } } := by
    rw [store, phase]
  have freed : (s.freed ++ (s.tx_mbufs c.desc_pos).toList).length = s.accepted.length + 1 - 16 ∧
      s.freed ++ (s.tx_mbufs c.desc_pos).toList =
        (s.accepted.map Prod.fst).take (s.accepted.length + 1 - 16) := by
    by_cases round : s.accepted.length < 16
    · rw [pos, sound.empty _ le_rfl round (.inl stage), sound.freed, count]
      have one : s.accepted.length + 1 - 16 = 0 := by omega
      have none_ : s.accepted.length - 16 = 0 := by omega
      simp [one, none_]
    · have inside : s.accepted.length - 16 < s.accepted.length := by omega
      have entry := List.getElem?_eq_getElem inside
      have place : Fin.ofNat TX_RING_SIZE s.accepted.length =
          Fin.ofNat TX_RING_SIZE (s.accepted.length - 16) := by
        apply Fin.ext
        change s.accepted.length % 16 = (s.accepted.length - 16) % 16
        omega
      have old := (sound.kept _ _ _ entry count.le).1
      have next : s.accepted.length + 1 - 16 = s.freed.length + 1 := by omega
      rw [pos, place, old, next]
      refine ⟨by simp, ?_⟩
      rw [List.take_add_one, ← sound.freed, List.getElem?_map, count, entry]
      rfl
  have more : s.freed.length ≤ (s.store c).freed.length := by
    rw [effect]
    simp
  rw [effect] at more ⊢
  refine { sound with
    freed := ?_
    freedCount := freed.1
    kept := ?_
    empty := ?_
    pages := ?_
    call := ?_ }
  · rw [freed.1]
    exact freed.2
  · intro k m p inside notFreed
    exact sound.kept k m p inside (more.trans notFreed)
  · intro k high low _
    exact sound.empty k high low (.inl stage)
  · have pages := sound.pages
    rw [owned_eq called] at pages
    refine pages.sublist (List.Sublist.map _ ?_)
    exact (List.drop_sublist_drop_left _ more).append_right _
  · rintro c' ⟨⟩
    obtain ⟨pos, fits, packet, _⟩ := sound.call c called
    refine ⟨pos, fits, packet, ?_, ?_, ?_⟩
    all_goals
      intro late
      change _ ≤ 1 at late
      omega

/-- The buffers that are not freed have other places than the one of the call. -/
theorem place_ne (started : s.stage ≠ 0) (notFreed : s.freed.length ≤ k) (inside : k < s.accepted.length) :
    Fin.ofNat TX_RING_SIZE k ≠ c.desc_pos := by
  have count := sound.freedCount
  rw [if_neg started] at count
  change _ = _ - 16 at count
  rw [desc_pos sound called]
  exact apart inside (by omega)

/-- The buffer goes into the table. -/
theorem store_mbuf (phase : c.phase = .mbuf) : (s.store c).Sound := by
  have stage : s.stage = 1 := by rw [stage_eq called, phase]; rfl
  have effect : s.store c = { s with
      tx_mbufs := Function.update s.tx_mbufs c.desc_pos (some c.m)
      call := some { c with phase := .addr } } := by
    rw [store, phase]
  have count := sound.freedCount
  rw [stage] at count
  rw [effect]
  refine { sound with
    freedCount := count
    kept := ?_
    empty := ?_
    pages := ?_
    call := ?_ }
  · intro k m p inside notFreed
    have other := place_ne sound called (by omega) notFreed (lt_of_getElem? inside)
    refine ⟨?_, (sound.kept k m p inside notFreed).2⟩
    exact (Function.update_of_ne other ..).trans (sound.kept k m p inside notFreed).1
  · intro k high low late
    have later : k ≠ s.accepted.length := late.resolve_left (by
      intro zero
      cases zero)
    have other : Fin.ofNat TX_RING_SIZE k ≠ c.desc_pos := by
      rw [desc_pos sound called]
      change k < 16 at low
      change s.accepted.length ≤ k at high
      exact (apart (by omega) (by omega)).symm
    exact (Function.update_of_ne other ..).trans (sound.empty k high low (.inr later))
  · have pages := sound.pages
    rwa [owned_eq called] at pages
  · rintro c' ⟨⟩
    obtain ⟨pos, fits, packet, _⟩ := sound.call c called
    refine ⟨pos, fits, packet, fun _ => Function.update_self .., ?_, ?_⟩
    all_goals
      intro late
      change _ ≤ 2 at late
      omega

/-- A store into the descriptor of the call, which keeps its status. -/
theorem setDesc {d : TxDesc} {next : TxPhase} (early : 2 ≤ s.stage) (later : s.stage < next.ctorIdx)
    (status : d.status = (s.tx_ring c.desc_pos).status)
    (addr : 3 ≤ next.ctorIdx → d.addr = c.m.head)
    (length : 4 ≤ next.ctorIdx → d.length = c.m.len) : (s.setDesc c d next).Sound := by
  have count := sound.freedCount
  rw [if_neg (by omega)] at count
  refine { sound with
    freedCount := ?_
    status := ?_
    empty := ?_
    queued := ?_
    pages := ?_
    call := ?_ }
  · rw [if_neg (by change next.ctorIdx ≠ 0; omega)]
    exact count
  · intro i
    show (Function.update s.tx_ring c.desc_pos d i).status &&& E1000_RXD_STAT_DD ≠ 0
    by_cases at_ : i = c.desc_pos
    · rw [at_, Function.update_self, status]
      exact sound.status _
    · rw [Function.update_of_ne at_]
      exact sound.status i
  · intro k high low late
    refine sound.empty k high low (.inr (late.resolve_left ?_))
    change next.ctorIdx ≠ 0
    omega
  · intro k m p inside notSent
    have other := place_ne sound called (by omega) (sound.freed_le.trans notSent) (lt_of_getElem? inside)
    show (Function.update s.tx_ring c.desc_pos d _).addr = _ ∧
      (Function.update s.tx_ring c.desc_pos d _).length = _
    rw [Function.update_of_ne other]
    exact sound.queued k m p inside notSent
  · have pages := sound.pages
    rwa [owned_eq called] at pages
  · rintro c' ⟨⟩
    obtain ⟨pos, fits, packet, mbuf, _⟩ := sound.call c called
    refine ⟨pos, fits, packet, fun _ => mbuf early, fun late => ?_, fun late => ?_⟩
    · show (Function.update s.tx_ring c.desc_pos d c.desc_pos).addr = _
      rw [Function.update_self]
      exact addr late
    · show (Function.update s.tx_ring c.desc_pos d c.desc_pos).length = _
      rw [Function.update_self]
      exact length late

/-- The call moves `TDT` and returns. -/
theorem store_tail (phase : c.phase = .tail) : (s.store c).Sound := by
  have stage : s.stage = 5 := by rw [stage_eq called, phase]; rfl
  obtain ⟨pos, fits, packet, mbuf, addr, length⟩ := sound.call c called
  have effect : s.store c = { s with
      tdt := after c.desc_pos
      call := none
      accepted := s.accepted ++ [(c.m, c.packet)] } := by
    rw [store, phase]
  have count := sound.freedCount
  rw [stage] at count
  have place := desc_pos sound called
  have longer : (s.accepted ++ [(c.m, c.packet)]).length = s.accepted.length + 1 := by simp
  have freed := sound.freed_le.trans sound.le
  have entry : ∀ {k m p}, (s.accepted ++ [(c.m, c.packet)])[k]? = some (m, p) →
      s.accepted[k]? = some (m, p) ∨ (k = s.accepted.length ∧ m = c.m ∧ p = c.packet) := by
    intro k m p inside
    by_cases old : k < s.accepted.length
    · rw [List.getElem?_append_left old] at inside
      exact .inl inside
    · rw [List.getElem?_append_right (by omega), List.getElem?_singleton] at inside
      split at inside
      · cases inside
        exact .inr ⟨by omega, rfl, rfl⟩
      · cases inside
  rw [effect]
  refine { sound with
    tdt := ?_
    le := ?_
    room := ?_
    sent := ?_
    freed := ?_
    freedCount := ?_
    kept := ?_
    empty := ?_
    queued := ?_
    fetched := ?_
    pages := ?_
    call := ?_ }
  · show after c.desc_pos = _
    rw [place, after_ofNat, longer]
  · rw [longer]
    exact sound.le.trans (Nat.le_succ _)
  · rw [longer]
    exact fits
  · rw [List.map_append, List.take_append_of_le_length (by simpa using sound.le)]
    exact sound.sent
  · rw [List.map_append, List.take_append_of_le_length (by simpa using freed)]
    exact sound.freed
  · rw [longer]
    exact count
  · intro k m p inside notFreed
    obtain old | ⟨rfl, rfl, rfl⟩ := entry inside
    · exact sound.kept k m p old notFreed
    · refine ⟨?_, packet⟩
      rw [← place]
      exact mbuf (by omega)
  · intro k high low _
    rw [longer] at high
    exact sound.empty k (by omega) low (.inr (by omega))
  · intro k m p inside notSent
    obtain old | ⟨rfl, rfl, rfl⟩ := entry inside
    · exact sound.queued k m p old notSent
    · rw [← place]
      exact ⟨addr (by omega), length (by omega)⟩
  · intro d fetched
    obtain ⟨m, p, inside, rest⟩ := sound.fetched d fetched
    refine ⟨m, p, ?_, rest⟩
    rw [List.getElem?_append_left (lt_of_getElem? inside)]
    exact inside
  · have pages := sound.pages
    rw [owned_eq called] at pages
    show ((((s.accepted ++ [(c.m, c.packet)]).map Prod.fst).drop s.freed.length ++ []).map
      TxMbuf.page).Nodup
    rw [List.append_nil, List.map_append, List.drop_append_of_le_length (by simpa using freed)]
    exact pages
  · rintro c' ⟨⟩

/-- Every store of a call keeps the invariant. -/
theorem store : (s.store c).Sound := by
  have stage := stage_eq called
  cases phase : c.phase with
  | free => exact store_free sound called phase
  | mbuf => exact store_mbuf sound called phase
  | addr =>
      rw [phase] at stage
      rw [TxRing.store, phase]
      refine setDesc sound called stage.ge (by rw [stage]; decide) rfl (fun _ => rfl) fun late => ?_
      exact absurd late (by decide)
  | length =>
      rw [phase] at stage
      rw [TxRing.store, phase]
      obtain ⟨_, _, _, _, addr, _⟩ := sound.call c called
      refine setDesc sound called (by rw [stage]; decide) (by rw [stage]; decide) rfl
        (fun _ => addr stage.ge) fun _ => ?_
      have low := c.m.low
      have high := c.m.high
      change c.m.head + c.m.len ≤ c.m.page + 4096 at high
      exact Nat.mod_eq_of_lt (by omega)
  | cmd =>
      rw [phase] at stage
      rw [TxRing.store, phase]
      obtain ⟨_, _, _, _, addr, length⟩ := sound.call c called
      exact setDesc sound called (by rw [stage]; decide) (by rw [stage]; decide) rfl
        (fun _ => addr (by rw [stage]; decide)) fun _ => length stage.ge
  | tail => exact store_tail sound called phase

end Store

/-- Every step keeps the invariant. -/
theorem step (sound : s.Sound) {label : TxLabel} (allowed : s.WithRoom label)
    (stepped : s.step label = some s') : s'.Sound := by
  obtain ⟨allowed, room⟩ := allowed
  cases label with
  | transmit m =>
      cases idle : s.call with
      | some c =>
          rw [TxRing.step, idle] at stepped
          cases stepped
      | none =>
          rw [TxRing.step, idle] at stepped
          simp only [sound.not_refuses, Bool.false_eq_true, if_false, Option.some.injEq] at stepped
          subst stepped
          exact sound.transmit idle (room m rfl) allowed
  | store =>
      obtain ⟨c, called, rfl⟩ := Option.map_eq_some_iff.mp stepped
      exact store sound called
  | fetch =>
      rw [TxRing.step] at stepped
      split at stepped
      next ready =>
        cases stepped
        exact sound.fetch ready.2
      · cases stepped
  | done =>
      obtain ⟨d, fetched, rfl⟩ := Option.map_eq_some_iff.mp stepped
      exact sound.done fetched
  | write mem =>
      cases stepped
      exact sound.write allowed

/-- The device sends one more packet. -/
theorem sendNext (sound : s.Sound) (more : s.sent.length < s.accepted.length) {start : TxRing}
    (steps : system.StepsUnder Device start s) :
    ∃ s', system.StepsUnder Device start s' ∧ s'.Sound ∧ s'.accepted = s.accepted ∧
      s'.sent.length = s.sent.length + 1 := by
  cases fetched : s.fetched with
  | some d =>
      have stepped : s.step .done = some (s.sendDone d) := by rw [TxRing.step, fetched]; rfl
      exact ⟨_, .step steps (show Device s .done from trivial) stepped, sound.done fetched, rfl,
        by simp [sendDone]⟩
  | none =>
      have ready : s.tdh ≠ s.tdt := by
        rw [sound.tdh, sound.tdt]
        exact apart more sound.room
      have first : s.step .fetch = some { s with fetched := some (s.tx_ring s.tdh) } := by
        rw [TxRing.step, if_pos ⟨by rw [fetched]; rfl, ready⟩]
      have sound' := sound.fetch ready
      exact ⟨_, .step (.step steps (show Device s .fetch from trivial) first)
        (show Device _ .done from trivial) rfl, sound'.done rfl, rfl, by simp [sendDone]⟩

/-- The device sends everything. -/
theorem sendAll (sound : s.Sound) : ∃ s', system.StepsUnder Device s s' ∧
    s'.accepted = s.accepted ∧ s'.sent = s.accepted.map Prod.snd := by
  have some_ : ∀ n ≤ s.accepted.length - s.sent.length, ∃ s', system.StepsUnder Device s s' ∧
      s'.Sound ∧ s'.accepted = s.accepted ∧ s'.sent.length = s.sent.length + n := by
    intro n
    induction n with
    | zero => exact fun _ => ⟨s, .refl, sound, rfl, rfl⟩
    | succ n ih =>
        intro inside
        obtain ⟨t, steps, sound', accepted, sent⟩ := ih (by omega)
        obtain ⟨s', steps', sound'', accepted', sent'⟩ :=
          sound'.sendNext (by rw [accepted]; omega) steps
        exact ⟨s', steps', sound'', accepted'.trans accepted, by omega⟩
  obtain ⟨s', steps, sound', accepted, sent⟩ := some_ _ le_rfl
  have le := sound.le
  refine ⟨s', steps, accepted, ?_⟩
  rw [sound'.sent, sent, accepted, List.take_of_length_le]
  rw [List.length_map]
  omega

/-- Only the first store of a call frees a buffer, and its packet was sent. -/
theorem freesDone (sound : s.Sound) {label : TxLabel} (stepped : s.step label = some s')
    (frees : s'.freed = s.freed ++ [m]) :
    ∀ old ∈ (s.accepted.map Prod.fst).drop s.sent.length, old.page ≠ m.page := by
  have unchanged : s'.freed ≠ s.freed := by
    rw [frees]
    simp
  cases label with
  | transmit m =>
      rw [TxRing.step] at stepped
      split at stepped
      · cases stepped
      · split at stepped <;> cases stepped <;> exact absurd rfl unchanged
  | fetch =>
      rw [TxRing.step] at stepped
      split at stepped <;> cases stepped
      exact absurd rfl unchanged
  | done =>
      obtain ⟨d, fetched, rfl⟩ := Option.map_eq_some_iff.mp stepped
      exact absurd rfl unchanged
  | write mem =>
      cases stepped
      exact absurd rfl unchanged
  | store =>
      obtain ⟨c, called, rfl⟩ := Option.map_eq_some_iff.mp stepped
      have sound' := store sound called
      have fits := (sound.call c called).2.1
      have count := sound.freedCount
      have count' := sound'.freedCount
      have same : (s.store c).accepted = s.accepted := by
        cases phase : c.phase with
        | tail =>
            rw [TxRing.store, phase] at unchanged
            exact absurd rfl unchanged
        | _ => simp only [TxRing.store, phase, TxRing.setDesc]
      have next : (s.store c).freed.length = s.freed.length + 1 := by
        rw [frees]
        simp
      have sent : s.freed.length < s.sent.length := by
        rw [same, next] at count'
        change s.accepted.length + 1 < s.sent.length + 16 at fits
        change _ = _ - 16 at count'
        split at count' <;> omega
      intro old member
      have pages := sound.pages
      rw [owned_eq called, List.map_append] at pages
      have distinct := (List.nodup_append.mp pages).1
      have freed := sound'.freed
      rw [same, next, List.take_add_one, ← sound.freed, frees] at freed
      have isFirst : (s.accepted.map Prod.fst)[s.freed.length]? = some m := by
        have last := List.append_cancel_left freed
        cases first : (s.accepted.map Prod.fst)[s.freed.length]? with
        | none =>
            rw [first] at last
            cases last
        | some m' =>
            rw [first] at last
            cases last
            rfl
      obtain ⟨inside, first⟩ := List.getElem?_eq_some_iff.mp isFirst
      rw [List.drop_eq_getElem_cons inside, first, List.map_cons, List.nodup_cons] at distinct
      rintro samePage
      refine distinct.1 (List.mem_map.mpr ⟨old, ?_, samePage⟩)
      exact (List.drop_sublist_drop_left _ sent).mem member

theorem promises (sound : s.Sound) : s.Promises WithRoom where
  inOrder := by
    rw [sound.sent]
    exact List.take_prefix ..
  allSent := sound.sendAll
  freedOnce := by
    refine ⟨?_, sound.freed_le⟩
    rw [sound.freed]
    exact List.take_prefix ..
  freesDone _ _ _ := sound.freesDone
  overwrites := by
    rintro c called ⟨k, notSent, inside, same⟩
    have room := sound.room
    change s.accepted.length < s.sent.length + 16 at room
    rw [desc_pos sound called] at same
    exact apart inside (by omega) same.symm
  refuses_iff := by
    intro m allowed idle
    rw [sound.not_refuses]
    exact iff_of_false Bool.false_ne_true (allowed.2 m rfl)

end Sound

/-- In every run whose calls are made while there is room in the ring, the driver keeps its promises;
a call that is made without room is not refused. -/
theorem transmits {s : TxRing} (run : system.ReachableUnder WithRoom s) :
    s.Promises WithRoom ∧ ((s.refuses = true ↔ s.Full) ↔ ¬ s.Full) := by
  have sound : s.Sound := by
    refine run.invariant ⟨?_, fun sound allowed stepped => sound.step allowed stepped⟩
    rintro s ⟨mem, rfl⟩
    exact Sound.initial mem
  refine ⟨sound.promises, ?_⟩
  rw [sound.not_refuses]
  simp

/-- A packet buffer with one byte, in the page of a number. -/
def oneByte (n : Nat) : TxMbuf where
  page := n * PGSIZE
  head := n * PGSIZE + 148
  len := 1
  low := Nat.le_add_right ..
  high := Nat.add_le_add_left (show 149 ≤ 4096 by omega) (n * PGSIZE)

/-- A call that hands over a buffer, and its first stores. -/
def callSteps (stores n : Nat) : List TxLabel := .transmit (oneByte n) :: List.replicate stores .store

/-- A step that does not store into memory, where it is allowed. With `room`, there is room for a
call. -/
def play (room : Bool) (s : TxRing) : TxLabel → Option TxRing
  | .transmit m =>
      if (s.owned.all fun old => old.page != m.page) ∧ (room = true → after s.tdt ≠ s.tdh) then
        s.step (.transmit m)
      else none
  | .write _ => none
  | label => s.step label

theorem reachable_play {room : Bool} {allowed : TxRing → TxLabel → Prop} {labels : List TxLabel}
    {s s' : TxRing} (run : system.ReachableUnder allowed s)
    (weaker : ∀ {s label}, s.Allowed label → (room = true → ∀ m, label = .transmit m → ¬ s.Full) →
      allowed s label)
    (played : labels.foldlM (play room) s = some s') : system.ReachableUnder allowed s' := by
  induction labels generalizing s with
  | nil =>
      cases played
      exact run
  | cons label labels ih =>
      rw [List.foldlM_cons] at played
      obtain ⟨t, first, played⟩ := Option.bind_eq_some_iff.mp played
      have ok : (s.Allowed label ∧ (room = true → ∀ m, label = .transmit m → ¬ s.Full)) ∧
          s.step label = some t := by
        cases label with
        | transmit m =>
            rw [play] at first
            split at first
            next fresh =>
              refine ⟨⟨fun old member => ?_, fun strict _ _ => fresh.2 strict⟩, first⟩
              simpa using List.all_eq_true.mp fresh.1 old member
            · cases first
        | write mem => cases first
        | _ => exact ⟨⟨trivial, fun _ _ other => by cases other⟩, first⟩
      exact ih (.step run (weaker ok.1.1 ok.1.2) ok.2) played

/-- The promises after two calls, between which the device sends the first packet. -/
theorem transmits_two : ∃ s, system.ReachableUnder WithRoom s ∧
    (s.accepted.length = 2 ∧ s.sent.length = 1) ∧ s.Promises WithRoom := by
  let labels : List TxLabel := callSteps 6 0 ++ [.fetch, .done] ++ callSteps 6 1
  have played : (labels.foldlM (play true) (e1000Init fun _ => 0)).map
      (fun s => (s.accepted.length, s.sent.length)) = some (2, 1) := by decide +kernel
  obtain ⟨s, run, seen⟩ := Option.map_eq_some_iff.mp played
  have reached : system.ReachableUnder WithRoom s :=
    reachable_play (.initial ⟨_, rfl⟩) (fun allowed room => ⟨allowed, room rfl⟩) run
  exact ⟨s, reached, Prod.mk.inj seen, (transmits reached).1⟩

/-- After sixteen calls the ring looks empty to the device, and the next call frees the first buffer,
whose packet was never sent. -/
theorem overruns : ∃ s, system.ReachableUnder Allowed s ∧ s.freed = [oneByte 0] ∧ s.sent = [] ∧
    ¬ s.Promises Allowed := by
  let labels : List TxLabel := (List.range 16).flatMap (callSteps 6) ++ callSteps 1 16
  have played : (labels.foldlM (play false) (e1000Init fun _ => 0)).map (fun s => (s.freed, s.sent)) =
      some ([oneByte 0], []) := by decide +kernel
  obtain ⟨s, run, seen⟩ := Option.map_eq_some_iff.mp played
  obtain ⟨freed, sent⟩ := Prod.mk.inj seen
  refine ⟨s, reachable_play (.initial ⟨_, rfl⟩) (fun allowed _ => allowed) run, freed, sent, fun promises => ?_⟩
  have order := promises.freedOnce.2
  rw [freed, sent] at order
  cases order

end TxRing

end Riscv2os.Xv7.E1000
