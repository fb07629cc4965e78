import Riscv2os.Xv7.FileTransfer
import Riscv2os.Xv7.Mmap
import Riscv2os.Xv7.NetRoundTrip
import Riscv2os.Xv7.PageAccounts

/-!
# Writing to a socket

`sockwrite` of `sysnet.c` and the branch of `filewrite` that calls it. The length comes from the system call
as it is, and the result goes back through a variable that `filewrite` does not return.
-/

namespace Riscv2os.Xv7

open Riscv2os.Std

/-- What a call of `sockwrite` did: its result, the place in the array of the packet buffer where the copy of
the data ends, and whether `net_tx_udp` got the packet. -/
structure SockWritten where
  result : Int
  host : Host
  copiedTo : Nat
  handed : Bool

namespace Host

/-- Send a datagram with `n` bytes of the user. A null pointer from `mbufalloc` goes to `mbufput`. -/
def sockwrite (h : Host) (so : Nat) (u : Uvm) (addr : Nat) (n : BitVec 32) : Except Fault SockWritten :=
  match h.net.mbufalloc (Eth.size + Ip.size + Udp.size) with
  | none => .error .nullPointer
  | some (m, net) => do
      let (_, net) ← net.mbufput m n.toNat
      let head := (net.mbuf m).head
      let bytes := u.copyin addr (uint64 n)
      let net ← net.storeHdr m head bytes
      if bytes.length ≠ uint64 n then
        return { result := -1, host := h.drop net m, copiedTo := head + bytes.length, handed := false }
      let sock := net.sock so
      let h ← { h with net := net }.netTxUdp m sock.raddr sock.lport sock.rport
      return { result := n.toInt, host := h, copiedTo := head + bytes.length, handed := true }

/-- `filewrite` of a socket. The first result is what the system call returns. -/
def filewrite (h : Host) (writable : Bool) (so : Nat) (u : Uvm) (addr : Nat) (n : BitVec 32) :
    Except Fault (Int × Option SockWritten) := do
  let ret := 0
  if writable = false then return (-1, none)
  let r ← h.sockwrite so u addr n
  return (ret, some r)

/-- `write` on a socket does what it promises: no fault, no byte behind the array, and the result tells
whether the datagram was handed over. -/
def WritesBounded (h : Host) (writable : Bool) (so : Nat) (u : Uvm) (addr : Nat) (n : BitVec 32) : Prop :=
  ∃ result written, h.filewrite writable so u addr n = .ok (result, written) ∧
    (∀ w, written = some w → w.copiedTo ≤ MBUF_SIZE) ∧
    if ∃ w, written = some w ∧ w.handed = true then result = n.toInt else result = -1

variable {h : Host} {m : Nat}

/-- A frame with room for its header is sent or dropped. -/
theorem netTxEth_returns (ethtype : BitVec 16) (room : Eth.size ≤ (h.net.mbuf m).head)
    (inside : (h.net.mbuf m).head ≤ MBUF_ROOM) : ∃ h', h.netTxEth m ethtype = .ok h' := by
  have stores := h.net.storeHdr_pushed m
    (Eth.toBytes { shost := localMac, dhost := broadcastMac, type := htons ethtype }) inside (by simpa)
  rw [Eth.length_toBytes] at stores
  obtain sent | ⟨h', sent⟩ := Option.eq_none_or_eq_some
    (e1000Transmit { h with net := (h.net.headed m
      (Eth.toBytes { shost := localMac, dhost := broadcastMac, type := htons ethtype })) } m)
  all_goals
    rw [netTxEth, Net.mbufpush_eq room]
    simp only [ok_bind]
    rw [stores]
    simp only [ok_bind, sent]
    exact ⟨_, rfl⟩

theorem netTxIp_returns (proto : UInt8) (dip : BitVec 32) (room : Eth.size + Ip.size ≤ (h.net.mbuf m).head)
    (inside : (h.net.mbuf m).head ≤ MBUF_ROOM) : ∃ h', h.netTxIp m proto dip = .ok h' := by
  generalize isHdr : h.ipHeader proto dip (BitVec.ofNat 16 ((h.net.data m).length + Ip.size)) = hdr
  have stores := h.net.storeHdr_pushed m hdr.toBytes inside (by rw [Ip.length_toBytes]; omega)
  have head := h.net.head_headed m hdr.toBytes
  rw [Ip.length_toBytes] at stores head
  rw [netTxIp, Net.mbufpush_eq (by omega)]
  simp only [ok_bind, Net.len_pushed, isHdr]
  rw [stores]
  have inside' : ((h.net.headed m hdr.toBytes).mbuf m).head ≤ MBUF_ROOM := by omega
  have room' : Eth.size ≤ ((h.net.headed m hdr.toBytes).mbuf m).head := by omega
  exact netTxEth_returns (h := { h with net := h.net.headed m hdr.toBytes }) ETHTYPE_IP room' inside'

/-- With room for the three headers the stack returns, whether the device takes the packet or not. -/
theorem netTxUdp_returns (dip : BitVec 32) (sport dport : BitVec 16)
    (room : Eth.size + Ip.size + Udp.size ≤ (h.net.mbuf m).head)
    (inside : (h.net.mbuf m).head ≤ MBUF_ROOM) : ∃ h', h.netTxUdp m dip sport dport = .ok h' := by
  generalize isHdr : udpHeader sport dport (BitVec.ofNat 16 ((h.net.data m).length + Udp.size)) = hdr
  have stores := h.net.storeHdr_pushed m hdr.toBytes inside (by rw [Udp.length_toBytes]; omega)
  have head := h.net.head_headed m hdr.toBytes
  rw [Udp.length_toBytes] at stores head
  rw [netTxUdp, Net.mbufpush_eq (by omega)]
  simp only [ok_bind, Net.len_pushed, isHdr]
  rw [stores]
  have inside' : ((h.net.headed m hdr.toBytes).mbuf m).head ≤ MBUF_ROOM := by omega
  have room' : Eth.size + Ip.size ≤ ((h.net.headed m hdr.toBytes).mbuf m).head := by omega
  exact netTxIp_returns (h := { h with net := h.net.headed m hdr.toBytes }) IPPROTO_UDP dip room' inside'

variable {so addr : Nat} {u : Uvm} {n : BitVec 32}

/-- Without a free page there is no packet buffer, and its null pointer is followed. -/
theorem sockwrite_null (full : h.net.freelist = []) :
    h.sockwrite so u addr n = .error .nullPointer := by
  have none : h.net.mbufalloc (Eth.size + Ip.size + Udp.size) = none := by
    simp [Net.mbufalloc, Net.kalloc, full]
  rw [sockwrite, none]

/-- The headroom that `sockwrite` asks for. -/
theorem mbufalloc_head {page : Nat} {rest : List Nat} (free : h.net.freelist = page :: rest) :
    ∃ net, h.net.mbufalloc (Eth.size + Ip.size + Udp.size) = some (page, net) ∧
      (net.mbuf page).head = 42 ∧ (net.mbuf page).len = 0 := by
  obtain ⟨net, alloc⟩ : ∃ net, h.net.kalloc = some (page, net) := by
    unfold Net.kalloc
    rw [free]
    exact ⟨_, rfl⟩
  refine ⟨net.setMbuf page fun mbuf =>
    ⟨0, 42, 0, fun place => if place.val < MBUF_SIZE then 0 else mbuf.buf place⟩, ?_, ?_⟩
  · rw [Net.mbufalloc, if_neg (by decide), alloc]
    rfl
  · simp [Net.setMbuf]

/-- A length that is negative or above the size of the array panics. -/
theorem sockwrite_panics (so : Nat) (u : Uvm) (addr : Nat) {page : Nat} {rest : List Nat}
    (free : h.net.freelist = page :: rest) (large : MBUF_SIZE < n.toNat) :
    h.sockwrite so u addr n = .error (.panic "mbufput") := by
  obtain ⟨net, alloc, _, len⟩ := mbufalloc_head free
  have put : net.mbufput page n.toNat = .error (.panic "mbufput") := by
    simp only [Net.mbufput, Net.setMbuf, Function.update_self, len]
    rw [if_pos]
    simpa using large
  rw [sockwrite, alloc]
  simp only [put]
  rfl

/-- Every other length is copied behind a headroom of 42 bytes and sent, or -1 is the result. -/
theorem sockwrite_returns (so : Nat) (u : Uvm) (addr : Nat) {page : Nat} {rest : List Nat}
    (free : h.net.freelist = page :: rest) (small : n.toNat ≤ MBUF_SIZE) :
    ∃ w, h.sockwrite so u addr n = .ok w ∧ w.copiedTo = 42 + u.reach addr n.toNat ∧
      (w.handed = true ↔ u.reach addr n.toNat = n.toNat) ∧
      w.result = if w.handed then n.toInt else -1 := by
  obtain ⟨net, alloc, head, len⟩ := mbufalloc_head free
  have put : net.mbufput page n.toNat = .ok (42, net.setMbuf page fun mbuf => { mbuf with len := n }) := by
    simp only [Net.mbufput, Net.setMbuf, Function.update_self, len, head]
    rw [if_neg (by simpa using small)]
    simp
  have length : uint64 n = n.toNat := by
    simp only [MBUF_SIZE] at small
    rw [uint64, BitVec.toInt_eq_toNat_of_lt (by omega)]
    omega
  have reach := u.reach_le addr n.toNat
  generalize isNet : (net.setMbuf page fun mbuf => { mbuf with len := n }) = net' at put
  have head' : (net'.mbuf page).head = 42 := by
    rw [← isNet]
    simpa [Net.setMbuf] using head
  simp only [MBUF_SIZE] at small
  have stores : net'.storeHdr page 42 (u.copyin addr n.toNat) = .ok (net'.setMbuf page fun mbuf =>
      { mbuf with buf := mbuf.buf.splice 42 (u.copyin addr n.toNat) }) := by
    rw [Net.storeHdr, if_pos (by rw [u.length_copyin]; simp only [MBUF_ROOM, PGSIZE]; omega)]
  generalize isNet' : (net'.setMbuf page fun mbuf =>
    { mbuf with buf := mbuf.buf.splice 42 (u.copyin addr n.toNat) }) = net'' at stores
  have head'' : (net''.mbuf page).head = 42 := by
    rw [← isNet']
    simpa [Net.setMbuf] using head'
  obtain ⟨h', sent⟩ := netTxUdp_returns (h := { h with net := net'' }) (m := page)
    (net''.sock so).raddr (net''.sock so).lport (net''.sock so).rport
    (show _ ≤ (net''.mbuf page).head by rw [head'']; decide)
    (show (net''.mbuf page).head ≤ _ by rw [head'']; decide)
  by_cases whole : u.reach addr n.toNat = n.toNat
  · refine ⟨⟨n.toInt, h', 42 + u.reach addr n.toNat, true⟩, ?_, rfl, iff_of_true rfl whole, rfl⟩
    rw [sockwrite, alloc]
    simp only [put, ok_bind, length, stores, u.length_copyin, whole, ne_eq, not_true, if_false, sent, head']
    rfl
  · refine ⟨⟨-1, h.drop net'' page, 42 + u.reach addr n.toNat, false⟩, ?_, rfl,
      iff_of_false Bool.false_ne_true whole, rfl⟩
    rw [sockwrite, alloc]
    simp only [put, ok_bind, length, stores, u.length_copyin, head', ne_eq, whole, not_false_eq_true, if_true]
    rfl

/-- `write` on a socket keeps its promises exactly if nothing is to be written and there is a page for the
packet buffer; a file that is not writable gets -1. -/
theorem writesBounded_iff (h : Host) (writable : Bool) (so : Nat) (u : Uvm) (addr : Nat) (n : BitVec 32) :
    h.WritesBounded writable so u addr n ↔ writable = false ∨ n = 0 ∧ h.net.freelist ≠ [] := by
  cases writable with
  | false =>
      refine iff_of_true ⟨-1, none, rfl, by simp, ?_⟩ (.inl rfl)
      rw [if_neg (by simp)]
  | true =>
      simp only [Bool.true_eq_false, false_or]
      constructor
      · rintro ⟨result, written, ran, _, told⟩
        obtain ⟨w, sent, ran⟩ : ∃ w, h.sockwrite so u addr n = .ok w ∧ (0, some w) = (result, written) := by
          simpa [filewrite, bind_ok, pure, Except.pure] using ran
        cases ran
        refine ⟨?_, fun full => ?_⟩
        · -- what `sockwrite` returns is not returned
          split at told
          · have := BitVec.toInt_inj.mp (told.symm.trans (BitVec.toInt_zero (w := 32)).symm)
            exact this
          · exact absurd told (by decide)
        · rw [sockwrite_null full] at sent
          cases sent
      · rintro ⟨rfl, free⟩
        obtain ⟨page, rest, list⟩ := List.exists_cons_of_ne_nil free
        obtain ⟨w, sent, copied, handed, _⟩ :=
          sockwrite_returns (n := 0) so u addr list (by decide)
        refine ⟨0, some w, ?_, ?_, ?_⟩
        · rw [filewrite, if_neg (by decide), sent]
          rfl
        · rintro _ ⟨⟩
          have none : u.reach addr (0 : BitVec 32).toNat = 0 := u.reach_zero addr
          rw [copied, none]
          decide
        · rw [if_pos ⟨w, rfl, handed.mpr (by simp)⟩]
          rfl

/-- A host with one free page. -/
def onePage : Host := { threeBytes with net := { threeBytes.net with freelist := [KERNBASE + PGSIZE] } }

/-- A write of one page panics. -/
theorem write_panics : ¬ onePage.WritesBounded true KERNBASE Uvm.emptyTable 0 4096 := by
  rintro ⟨result, written, ran, _⟩
  have panics := sockwrite_panics (h := onePage) (n := 4096) KERNBASE Uvm.emptyTable 0 rfl (by decide)
  rw [filewrite, if_neg (by decide), panics] at ran
  cases ran

end Host

end Riscv2os.Xv7
