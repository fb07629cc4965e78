import Riscv2os.Std.Loops
import Riscv2os.Std.TransitionSystem
import Riscv2os.Xv7.NetStack

/-!
# The layout of a packet buffer

The four operations on a packet buffer with the addresses and the widths that they have in C. The owner
of the buffer sees a deque of bytes that starts at the head. What `mbufput` checks is the length alone, so
that after a headroom the data may go on behind the array, and a length of nearly `2 ^ 32` wraps around.
-/

namespace Riscv2os.Xv7

open Riscv2os.Std

/-- The addresses and the length in a `struct mbuf`. -/
structure RawMbuf where
  buf : BitVec 64
  head : BitVec 64
  len : BitVec 32

namespace RawMbuf

/-- Strip data from the start of the buffer. -/
def mbufpull (m : RawMbuf) (len : BitVec 32) : Option (BitVec 64 × RawMbuf) :=
  let tmp := m.head
  if m.len < len then none
  else some (tmp, { m with len := m.len - len, head := m.head + len.setWidth 64 })

/-- Prepend data to the beginning of the buffer. -/
def mbufpush (m : RawMbuf) (len : BitVec 32) : Except Fault (BitVec 64 × RawMbuf) :=
  let m := { m with head := m.head - len.setWidth 64 }
  if m.head < m.buf then .error (.panic "mbufpush")
  else .ok (m.head, { m with len := m.len + len })

/-- Append data to the end of the buffer. -/
def mbufput (m : RawMbuf) (len : BitVec 32) : Except Fault (BitVec 64 × RawMbuf) :=
  let tmp := m.head + m.len.setWidth 64
  let m := { m with len := m.len + len }
  if m.len > BitVec.ofNat 32 MBUF_SIZE then .error (.panic "mbufput") else .ok (tmp, m)

/-- Strip data from the end of the buffer. -/
def mbuftrim (m : RawMbuf) (len : BitVec 32) : Option (BitVec 64 × RawMbuf) :=
  if len > m.len then none
  else
    let m := { m with len := m.len - len }
    some (m.head + m.len.setWidth 64, m)

/-- A new buffer in a page. The array is behind the other fields, at offset 20. -/
def mbufalloc (page : BitVec 64) (headroom : BitVec 32) : Option RawMbuf :=
  if headroom > BitVec.ofNat 32 MBUF_SIZE then none
  else some { buf := page + 20, head := page + 20 + headroom.setWidth 64, len := 0 }

end RawMbuf

/-- A packet buffer of the network stack whose array is at `base`. -/
def Mbuf.raw (mbuf : Mbuf) (base : BitVec 64) : RawMbuf :=
  ⟨base, base + BitVec.ofNat 64 mbuf.head, mbuf.len⟩

/-- An `unsigned int` in pointer arithmetic. -/
theorem widen_eq (n : BitVec 32) : n.setWidth 64 = BitVec.ofNat 64 n.toNat := by
  apply BitVec.eq_of_toNat_eq
  rw [BitVec.toNat_setWidth, BitVec.toNat_ofNat]

@[simp] theorem toNat_widen (n : BitVec 32) : (n.setWidth 64).toNat = n.toNat := by
  have := n.isLt
  rw [BitVec.toNat_setWidth, Nat.mod_eq_of_lt (by omega)]

namespace Net

variable (s : Net) (m : Nat) (n : BitVec 32) (base : BitVec 64)

/-- What a function of the network stack returns, as an address and a raw buffer. -/
def rawResult (r : Nat × Net) : BitVec 64 × RawMbuf :=
  (base + BitVec.ofNat 64 r.1, (r.2.mbuf m).raw base)

theorem raw_mbufpull :
    ((s.mbuf m).raw base).mbufpull n = (s.mbufpull m n.toNat).map (rawResult m base) := by
  by_cases short : (s.mbuf m).len < n
  · have short' : (s.mbuf m).len.toNat < n.toNat := short
    simp [RawMbuf.mbufpull, mbufpull, Mbuf.raw, short, short']
  · have enough : ¬ (s.mbuf m).len.toNat < n.toNat := short
    simp [RawMbuf.mbufpull, mbufpull, rawResult, Mbuf.raw, setMbuf, short, enough, BitVec.ofNat_add,
      BitVec.add_assoc]

theorem raw_mbuftrim : ((s.mbuf m).raw base).mbuftrim n = (s.mbuftrim m n).map (rawResult m base) := by
  by_cases short : n > (s.mbuf m).len
  · simp [RawMbuf.mbuftrim, mbuftrim, Mbuf.raw, short]
  · simp [RawMbuf.mbuftrim, mbuftrim, rawResult, Mbuf.raw, setMbuf, short, BitVec.ofNat_add,
      BitVec.add_assoc, -BitVec.toNat_sub]

theorem raw_mbufput : ((s.mbuf m).raw base).mbufput n = (s.mbufput m n.toNat).map (rawResult m base) := by
  have length : BitVec.ofNat 32 n.toNat = n := by simp
  by_cases long : (s.mbuf m).len + n > BitVec.ofNat 32 MBUF_SIZE
  · have long' : ((s.mbuf m).len + n).toNat > MBUF_SIZE := long
    simp [RawMbuf.mbufput, mbufput, Mbuf.raw, setMbuf, long, length, long', Except.map, -BitVec.toNat_add]
  · have fits : ¬ ((s.mbuf m).len + n).toNat > MBUF_SIZE := long
    simp [RawMbuf.mbufput, mbufput, rawResult, Mbuf.raw, setMbuf, long, length, fits, Except.map,
      BitVec.ofNat_add, BitVec.add_assoc, -BitVec.toNat_add]

/-- Pointers and offsets agree as long as no header is longer than what lies below the array. -/
theorem raw_mbufpush (low : n.toNat ≤ base.toNat) (high : base.toNat + (s.mbuf m).head < 2 ^ 64) :
    ((s.mbuf m).raw base).mbufpush n = (s.mbufpush m n.toNat).map (rawResult m base) := by
  have start : (base + BitVec.ofNat 64 (s.mbuf m).head).toNat = base.toNat + (s.mbuf m).head := by
    rw [BitVec.toNat_add, BitVec.toNat_ofNat]
    omega
  have head : (base + BitVec.ofNat 64 (s.mbuf m).head - n.setWidth 64).toNat =
      base.toNat + (s.mbuf m).head - n.toNat := by
    rw [BitVec.toNat_sub_of_le (by rw [BitVec.le_def, toNat_widen, start]; omega), toNat_widen, start]
  have check : base + BitVec.ofNat 64 (s.mbuf m).head - n.setWidth 64 < base ↔ (s.mbuf m).head < n.toNat := by
    rw [BitVec.lt_def, head]
    omega
  by_cases short : (s.mbuf m).head < n.toNat
  · have panics : ((s.mbuf m).raw base).mbufpush n = .error (.panic "mbufpush") :=
      if_pos (check.mpr short)
    rw [panics, mbufpush, if_pos short]
    rfl
  · have pointer : base + BitVec.ofNat 64 (s.mbuf m).head - n.setWidth 64 =
        base + BitVec.ofNat 64 ((s.mbuf m).head - n.toNat) := by
      apply BitVec.eq_of_toNat_eq
      rw [head, BitVec.toNat_add, BitVec.toNat_ofNat]
      omega
    have pushed : ((s.mbuf m).raw base).mbufpush n =
        .ok (base + BitVec.ofNat 64 (s.mbuf m).head - n.setWidth 64,
          ⟨base, base + BitVec.ofNat 64 (s.mbuf m).head - n.setWidth 64, (s.mbuf m).len + n⟩) :=
      if_neg (mt check.mp short)
    rw [pushed, pointer, mbufpush, if_neg short]
    simp [Except.map, rawResult, Mbuf.raw, setMbuf]

end Net

/-- The bytes from an address on. -/
def bytesAt (mem : BitVec 64 → UInt8) (p : BitVec 64) (n : Nat) : List UInt8 :=
  (List.range n).map fun k => mem (p + BitVec.ofNat 64 k)

/-- The calls of the owner, and the stores to the data. -/
inductive MbufAct where
  | pull (len : BitVec 32)
  | push (len : BitVec 32)
  | put (len : BitVec 32)
  | trim (len : BitVec 32)
  | store (k : Nat) (byte : UInt8)

/-- A packet buffer in memory, and the deque that its owner takes it for. -/
structure MbufSys where
  m : RawMbuf
  mem : BitVec 64 → UInt8
  deque : List UInt8

namespace MbufSys

/-- What the owner sees at the head. -/
def data (s : MbufSys) : List UInt8 := bytesAt s.mem s.m.head s.m.len.toNat

/-- One call that does not panic, and what it does to a deque. New bytes are those that lie at the
address that the call returns. -/
def step (s : MbufSys) : MbufAct → Except Fault MbufSys
  | .pull n => .ok { s with
      m := ((s.m.mbufpull n).map Prod.snd).getD s.m
      deque := if s.deque.length < n.toNat then s.deque else s.deque.drop n.toNat }
  | .push n => do
      let (p, m) ← s.m.mbufpush n
      return { s with m := m, deque := bytesAt s.mem p n.toNat ++ s.deque }
  | .put n => do
      let (p, m) ← s.m.mbufput n
      return { s with m := m, deque := s.deque ++ bytesAt s.mem p n.toNat }
  | .trim n => .ok { s with
      m := ((s.m.mbuftrim n).map Prod.snd).getD s.m
      deque := if s.deque.length < n.toNat then s.deque else s.deque.take (s.deque.length - n.toNat) }
  | .store k byte =>
      if k < s.m.len.toNat then
        .ok { s with
          mem := Function.update s.mem (s.m.head + BitVec.ofNat 64 k) byte
          deque := s.deque.set k byte }
      else .error .outOfBounds

/-- The data lies in the array, and it is the deque. -/
structure Good (s : MbufSys) : Prop where
  above : s.m.buf.toNat ≤ s.m.head.toNat
  below : s.m.head.toNat + s.m.len.toNat ≤ s.m.buf.toNat + MBUF_SIZE
  deque : s.data = s.deque

/-- The data that is asked for fits behind what is there, and the head does not go below address 0. -/
def Fits (s : MbufSys) : MbufAct → Prop
  | .push n => n.toNat ≤ s.m.head.toNat
  | .put n => s.m.head.toNat + s.m.len.toNat + n.toNat ≤ s.m.buf.toNat + MBUF_SIZE
  | _ => True

end MbufSys

/-- A packet buffer from `mbufalloc` on, in a page of physical memory. -/
def mbufSystem : TransitionSystem MbufSys MbufAct where
  Initial s := ∃ page headroom, KERNBASE ≤ page.toNat ∧ page.toNat + PGSIZE ≤ PHYSTOP ∧
    RawMbuf.mbufalloc page headroom = some s.m ∧
    (∀ k < MBUF_SIZE, s.mem (s.m.buf + BitVec.ofNat 64 k) = 0) ∧ s.deque = []
  Step s act s' := s.step act = .ok s'

section Bytes

variable {mem : BitVec 64 → UInt8} {p : BitVec 64}

@[simp] theorem length_bytesAt (mem : BitVec 64 → UInt8) (p : BitVec 64) (n : Nat) :
    (bytesAt mem p n).length = n := by
  simp [bytesAt]

/-- Bytes one behind the other. -/
theorem bytesAt_append (mem : BitVec 64 → UInt8) (p : BitVec 64) (a b : Nat) :
    bytesAt mem p a ++ bytesAt mem (p + BitVec.ofNat 64 a) b = bytesAt mem p (a + b) := by
  simp only [bytesAt, List.range_add, List.map_append, List.map_map]
  congr 1
  refine List.map_congr_left fun k _ => ?_
  simp [BitVec.ofNat_add, BitVec.add_assoc]

theorem drop_bytesAt {a n : Nat} (le : a ≤ n) :
    (bytesAt mem p n).drop a = bytesAt mem (p + BitVec.ofNat 64 a) (n - a) := by
  obtain ⟨b, rfl⟩ := Nat.exists_eq_add_of_le le
  rw [← bytesAt_append, List.drop_left' (length_bytesAt ..), Nat.add_sub_cancel_left]

theorem take_bytesAt {a n : Nat} (le : a ≤ n) : (bytesAt mem p n).take a = bytesAt mem p a := by
  obtain ⟨b, rfl⟩ := Nat.exists_eq_add_of_le le
  rw [← bytesAt_append, List.take_left' (length_bytesAt ..)]

end Bytes

namespace MbufSys

variable {s s' : MbufSys} {n : BitVec 32} {act : MbufAct}

/-- The array lies in physical memory. -/
def Placed (s : MbufSys) : Prop := KERNBASE ≤ s.m.buf.toNat ∧ s.m.buf.toNat + MBUF_SIZE ≤ PHYSTOP

theorem Good.length (good : s.Good) : s.deque.length = s.m.len.toNat := by
  rw [← good.deque, data, length_bytesAt]

theorem Good.pull (good : s.Good) (placed : s.Placed) (ran : s.step (.pull n) = .ok s') : s'.Good := by
  have bounds := placed.2
  have above := good.above
  have below := good.below
  have length := good.length
  simp only [PHYSTOP, KERNBASE, MBUF_SIZE] at bounds below
  cases ran
  by_cases short : s.m.len < n
  · have short' : s.deque.length < n.toNat := by
      rw [length]
      exact short
    have none : s.m.mbufpull n = none := if_pos short
    rw [none, if_pos short']
    exact good
  have enough : n.toNat ≤ s.m.len.toNat := not_lt.mp short
  have some_ : s.m.mbufpull n = some (s.m.head,
      { s.m with len := s.m.len - n, head := s.m.head + n.setWidth 64 }) := if_neg short
  rw [some_, if_neg (by omega)]
  have head : (s.m.head + n.setWidth 64).toNat = s.m.head.toNat + n.toNat := by
    rw [BitVec.toNat_add, toNat_widen, Nat.mod_eq_of_lt (by omega)]
  have len : (s.m.len - n).toNat = s.m.len.toNat - n.toNat := BitVec.toNat_sub_of_le enough
  refine ⟨?_, ?_, ?_⟩
  · simp only [Option.map_some, Option.getD_some, head]
    omega
  · simp only [Option.map_some, Option.getD_some, head, len, MBUF_SIZE]
    omega
  · simp only [data, Option.map_some, Option.getD_some, len, widen_eq]
    rw [← drop_bytesAt enough]
    exact congrArg (List.drop n.toNat) good.deque

theorem Good.trim (good : s.Good) (ran : s.step (.trim n) = .ok s') : s'.Good := by
  have above := good.above
  have below := good.below
  have length := good.length
  cases ran
  by_cases short : n > s.m.len
  · have short' : s.deque.length < n.toNat := by
      rw [length]
      exact short
    have none : s.m.mbuftrim n = none := if_pos short
    rw [none, if_pos short']
    exact good
  have enough : n.toNat ≤ s.m.len.toNat := not_lt.mp short
  have some_ : s.m.mbuftrim n = some (s.m.head + (s.m.len - n).setWidth 64,
      { s.m with len := s.m.len - n }) := if_neg short
  rw [some_, if_neg (by omega)]
  have len : (s.m.len - n).toNat = s.m.len.toNat - n.toNat := BitVec.toNat_sub_of_le enough
  refine ⟨above, ?_, ?_⟩
  · simp only [Option.map_some, Option.getD_some, len]
    omega
  · simp only [data, Option.map_some, Option.getD_some, len, length]
    rw [← take_bytesAt (Nat.sub_le ..)]
    exact congrArg (List.take _) good.deque

/-- A push that does not panic. The difference may have gone below 0. -/
theorem push_eq (ran : s.step (.push n) = .ok s') :
    s' = { s with
        m := { s.m with head := s.m.head - n.setWidth 64, len := s.m.len + n }
        deque := bytesAt s.mem (s.m.head - n.setWidth 64) n.toNat ++ s.deque } ∧
      s.m.buf.toNat ≤ (s.m.head - n.setWidth 64).toNat := by
  obtain ⟨⟨p, m⟩, pushed, ran⟩ := bind_ok.mp ran
  unfold RawMbuf.mbufpush at pushed
  dsimp only at pushed
  split at pushed
  · cases pushed
  next above =>
  cases pushed
  cases ran
  exact ⟨rfl, not_lt.mp above⟩

theorem Good.push (good : s.Good) (placed : s.Placed) (ran : s.step (.push n) = .ok s') :
    s'.Good ↔ s.Fits (.push n) := by
  have bounds := placed.2
  have below := good.below
  have small := n.isLt
  have wide := s.m.head.isLt
  simp only [PHYSTOP, KERNBASE, MBUF_SIZE] at bounds below
  obtain ⟨rfl, above⟩ := push_eq ran
  by_cases fits : n.toNat ≤ s.m.head.toNat
  · refine iff_of_true ?_ fits
    have head : (s.m.head - n.setWidth 64).toNat = s.m.head.toNat - n.toNat := by
      rw [BitVec.toNat_sub_of_le (by rw [BitVec.le_def, toNat_widen]; exact fits), toNat_widen]
    rw [head] at above
    have len : (s.m.len + n).toNat = n.toNat + s.m.len.toNat := by
      rw [BitVec.toNat_add, Nat.mod_eq_of_lt (by omega), Nat.add_comm]
    refine ⟨?_, ?_, ?_⟩
    · simp only [head]
      exact above
    · simp only [head, len, MBUF_SIZE]
      omega
    · simp only [data, len]
      rw [← bytesAt_append, ← widen_eq, BitVec.sub_add_cancel]
      exact congrArg _ good.deque
  · -- the head is now at the end of the address space
    refine iff_of_false (fun good' => ?_) fits
    have below' := good'.below
    simp only [BitVec.toNat_sub, toNat_widen, MBUF_SIZE] at below'
    omega

/-- A put that does not panic. The sum may have gone beyond `2 ^ 32`. -/
theorem put_eq (ran : s.step (.put n) = .ok s') :
    s' = { s with
        m := { s.m with len := s.m.len + n }
        deque := s.deque ++ bytesAt s.mem (s.m.head + s.m.len.setWidth 64) n.toNat } := by
  obtain ⟨⟨p, m⟩, put, ran⟩ := bind_ok.mp ran
  unfold RawMbuf.mbufput at put
  dsimp only at put
  split at put
  · cases put
  cases put
  cases ran
  rfl

theorem Good.put (good : s.Good) (placed : s.Placed) (ran : s.step (.put n) = .ok s') :
    s'.Good ↔ s.Fits (.put n) := by
  have bounds := placed.2
  have above := good.above
  have below := good.below
  have length := good.length
  have small := n.isLt
  simp only [PHYSTOP, KERNBASE, MBUF_SIZE] at bounds below
  obtain rfl := put_eq ran
  have sum : (s.m.len + n).toNat = (s.m.len.toNat + n.toNat) % 2 ^ 32 := BitVec.toNat_add ..
  constructor
  · intro good'
    have below' := good'.below
    -- without a wrap the length is that of the deque
    have length' := good'.length
    simp only [List.length_append, length_bytesAt, length, sum, MBUF_SIZE] at below' length'
    show _ ≤ _
    simp only [MBUF_SIZE]
    omega
  · intro fits
    have fits : s.m.head.toNat + s.m.len.toNat + n.toNat ≤ s.m.buf.toNat + MBUF_SIZE := fits
    simp only [MBUF_SIZE] at fits
    have len : (s.m.len + n).toNat = s.m.len.toNat + n.toNat := by
      rw [sum, Nat.mod_eq_of_lt (by omega)]
    refine ⟨above, ?_, ?_⟩
    · simp only [len, MBUF_SIZE]
      omega
    · simp only [data, len]
      rw [← bytesAt_append, ← widen_eq]
      exact congrArg (· ++ _) good.deque

theorem Good.store {k : Nat} {byte : UInt8} (good : s.Good) (ran : s.step (.store k byte) = .ok s') :
    s'.Good := by
  simp only [step] at ran
  split at ran
  swap
  · cases ran
  next inside =>
  cases ran
  refine ⟨good.above, good.below, ?_⟩
  rw [← good.deque]
  refine List.ext_getElem (by simp [data]) fun i here _ => ?_
  simp only [data, bytesAt, List.getElem_map, List.getElem_range, List.getElem_set]
  have i_lt : i < s.m.len.toNat := by simpa [data] using here
  have wide := s.m.len.isLt
  by_cases same : k = i
  · subst same
    rw [if_pos rfl, Function.update_self]
  · rw [if_neg same, Function.update_of_ne]
    intro equal
    have places := congrArg BitVec.toNat (add_left_cancel equal)
    rw [BitVec.toNat_ofNat, BitVec.toNat_ofNat] at places
    omega

/-- No call moves the array. -/
theorem step_buf (ran : s.step act = .ok s') : s'.m.buf = s.m.buf := by
  cases act with
  | pull n =>
      cases ran
      unfold RawMbuf.mbufpull
      dsimp only
      split <;> rfl
  | push n => rw [(push_eq ran).1]
  | put n => rw [put_eq ran]
  | trim n =>
      cases ran
      unfold RawMbuf.mbuftrim
      split <;> rfl
  | store k byte =>
      simp only [step] at ran
      split at ran
      · cases ran
        rfl
      · cases ran

/-- The data stays in the array, and a deque, as long as what is asked for fits. -/
theorem Good.step_iff (good : s.Good) (placed : s.Placed) (ran : s.step act = .ok s') :
    s'.Good ↔ s.Fits act := by
  cases act with
  | pull n => exact iff_of_true (good.pull placed ran) trivial
  | push n => exact good.push placed ran
  | put n => exact good.put placed ran
  | trim n => exact iff_of_true (good.trim ran) trivial
  | store k byte => exact iff_of_true (good.store ran) trivial

/-- The runs in which what is asked for fits. -/
abbrev Run : MbufSys → Prop := mbufSystem.ReachableUnder Fits

theorem initial_good (start : mbufSystem.Initial s) : s.Good ∧ s.Placed := by
  obtain ⟨page, headroom, low, high, alloc, _, empty⟩ := start
  unfold RawMbuf.mbufalloc at alloc
  split at alloc
  · cases alloc
  next small =>
  have small : headroom.toNat ≤ MBUF_SIZE := not_lt.mp small
  simp only [KERNBASE, PHYSTOP, PGSIZE, MBUF_SIZE] at low high small
  have alloc := Option.some.inj alloc
  have twenty : (20 : BitVec 64).toNat = 20 := rfl
  have zero : (0 : BitVec 32).toNat = 0 := rfl
  have buf : s.m.buf.toNat = page.toNat + 20 := by
    rw [← alloc, BitVec.toNat_add, twenty]
    exact Nat.mod_eq_of_lt (by omega)
  have head : s.m.head.toNat = page.toNat + 20 + headroom.toNat := by
    rw [← alloc]
    simp only [BitVec.toNat_add, toNat_widen, twenty]
    omega
  have len : s.m.len = 0 := by rw [← alloc]
  refine ⟨⟨by omega, ?_, ?_⟩, ?_, ?_⟩
  · rw [len, head, buf, zero]
    simp only [MBUF_SIZE]
    omega
  · rw [empty, data, len]
    rfl
  · simp only [KERNBASE]
    omega
  · simp only [PHYSTOP, KERNBASE, MBUF_SIZE]
    omega

theorem Run.good (run : Run s) : s.Good ∧ s.Placed := by
  have inductive_ : mbufSystem.Inductive Fits fun s => s.Good ∧ s.Placed := by
    refine ⟨initial_good, fun {s act s'} inv fits ran => ⟨(inv.1.step_iff inv.2 ran).mpr fits, ?_⟩⟩
    unfold Placed
    rw [step_buf ran]
    exact inv.2
  exact TransitionSystem.ReachableUnder.invariant inductive_ run

/-- Pull takes back what push has prepended. -/
theorem Good.push_pull {p : BitVec 64} {m : RawMbuf} (good : s.Good) (placed : s.Placed)
    (fits : s.Fits (.push n)) (pushed : s.m.mbufpush n = .ok (p, m)) : m.mbufpull n = some (p, s.m) := by
  have bounds := placed.2
  have below := good.below
  have fits : n.toNat ≤ s.m.head.toNat := fits
  simp only [PHYSTOP, KERNBASE, MBUF_SIZE] at bounds below
  unfold RawMbuf.mbufpush at pushed
  dsimp only at pushed
  split at pushed
  · cases pushed
  next above =>
  cases pushed
  have above : s.m.buf.toNat ≤ (s.m.head - n.setWidth 64).toNat := not_lt.mp above
  rw [BitVec.toNat_sub_of_le (by rw [BitVec.le_def, toNat_widen]; exact fits), toNat_widen] at above
  have enough : ¬ s.m.len + n < n := by
    rw [BitVec.lt_def, BitVec.toNat_add, Nat.mod_eq_of_lt (by omega)]
    omega
  simp only [RawMbuf.mbufpull, if_neg enough, BitVec.add_sub_cancel, BitVec.sub_add_cancel]

/-- Trim takes back what put has appended. -/
theorem Good.put_trim {p : BitVec 64} {m : RawMbuf} (good : s.Good) (fits : s.Fits (.put n))
    (put : s.m.mbufput n = .ok (p, m)) : m.mbuftrim n = some (p, s.m) := by
  have above := good.above
  have fits : s.m.head.toNat + s.m.len.toNat + n.toNat ≤ s.m.buf.toNat + MBUF_SIZE := fits
  simp only [MBUF_SIZE] at fits
  unfold RawMbuf.mbufput at put
  dsimp only at put
  split at put
  · cases put
  cases put
  have enough : ¬ n > s.m.len + n := by
    rw [gt_iff_lt, BitVec.lt_def, BitVec.toNat_add, Nat.mod_eq_of_lt (by omega)]
    omega
  simp only [RawMbuf.mbuftrim, if_neg enough, BitVec.add_sub_cancel]

/-- In every run in which what is asked for fits, the data stays in the array and is that of a deque, and push
and pull, put and trim are inverse. The first call that does not fit ends that. -/
theorem good_iff {s : MbufSys} (run : Run s) :
    s.Good ∧ (∀ act s', s.step act = .ok s' → (s'.Good ↔ s.Fits act)) ∧
      (∀ n p m, s.Fits (.push n) → s.m.mbufpush n = .ok (p, m) → m.mbufpull n = some (p, s.m)) ∧
      ∀ n p m, s.Fits (.put n) → s.m.mbufput n = .ok (p, m) → m.mbuftrim n = some (p, s.m) :=
  ⟨run.good.1, fun _ _ ran => run.good.1.step_iff run.good.2 ran,
    fun _ _ _ fits pushed => run.good.1.push_pull run.good.2 fits pushed,
    fun _ _ _ fits put => run.good.1.put_trim fits put⟩

/-- A buffer with all of its array as headroom. -/
def headroomOnly : MbufSys where
  m := ⟨0x80000014, 0x80000814, 0⟩
  mem _ := 0
  deque := []

theorem headroomOnly_run {allowed : MbufSys → MbufAct → Prop} :
    mbufSystem.ReachableUnder allowed headroomOnly := by
  refine .initial ⟨0x80000000, 2048, by decide, by decide, rfl, fun _ _ => rfl, rfl⟩

/-- A header is pushed and pulled again. -/
theorem good_header : ∃ p m, headroomOnly.m.mbufpush 14 = .ok (p, m) ∧
    m.mbufpull 14 = some (p, headroomOnly.m) :=
  ⟨_, _, rfl, (good_iff headroomOnly_run).2.2.1 14 _ _
    (show (14 : BitVec 32).toNat ≤ headroomOnly.m.head.toNat by decide) rfl⟩

/-- One byte is put behind the array. -/
theorem good_overflow : ¬ ∀ s, mbufSystem.Reachable s → s.Good := by
  intro claim
  obtain ⟨s, ran⟩ : ∃ s, headroomOnly.step (.put 1) = .ok s := ⟨_, rfl⟩
  have good := claim s (headroomOnly_run.step trivial ran)
  obtain rfl := put_eq ran
  exact absurd good.below (by decide)

end MbufSys

end Riscv2os.Xv7
