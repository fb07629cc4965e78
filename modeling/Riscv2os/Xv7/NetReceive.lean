import Riscv2os.Std.Loops
import Riscv2os.Xv7.NetStack

/-!
# What a received frame means

`received` says on the bytes of a frame what the receive path of `net.c` makes of it: a
datagram for a socket, an ARP request to answer, or nothing. The functions of the C code
walk over the same bytes in a packet buffer, and `netRx_eq` shows that they come to the same
result, and never read a header outside the frame.
-/

namespace Riscv2os.Xv7

open Riscv2os.Std

/-- What is to be done with a frame. -/
inductive Received where
  | dropped
  | arp (sha : Bytes ETHADDR_LEN) (sip : BitVec 32)
  | udp (payload : List UInt8) (raddr : BitVec 32) (lport rport : BitVec 16)

/-- A UDP packet behind an IP header that leaves `len` bytes for it. -/
def receivedUdp (len : BitVec 16) (src : BitVec 32) (packet : List UInt8) : Received :=
  let udphdr := Udp.ofBytes (packet.take Udp.size)
  let payload := len - BitVec.ofNat 16 Udp.size
  if packet.length < Udp.size ∨ ntohs udphdr.ulen ≠ len ∨
      (packet.drop Udp.size).length < payload.toNat then .dropped
  else
    .udp ((packet.drop Udp.size).take payload.toNat) (ntohl src) (ntohs udphdr.dport)
      (ntohs udphdr.sport)

def receivedIp (localIp : BitVec 32) (packet : List UInt8) : Received :=
  let iphdr := Ip.ofBytes (packet.take Ip.size)
  if packet.length < Ip.size ∨ iphdr.vhl ≠ IP_VHL ∨ inCksum (packet.take Ip.size) ≠ 0 ∨
      htons iphdr.off ≠ 0 ∨ htonl iphdr.dst ≠ localIp ∨ iphdr.p ≠ IPPROTO_UDP then .dropped
  else
    receivedUdp (ntohs iphdr.len - BitVec.ofNat 16 Ip.size) iphdr.src (packet.drop Ip.size)

def receivedArp (localIp : BitVec 32) (packet : List UInt8) : Received :=
  let arphdr := Arp.ofBytes (packet.take Arp.size)
  if packet.length < Arp.size ∨
      (ntohs arphdr.hrd ≠ ARP_HRD_ETHER ∨ ntohs arphdr.pro ≠ ETHTYPE_IP ∨
        arphdr.hln ≠ UInt8.ofNat ETHADDR_LEN ∨ arphdr.pln ≠ 4) ∨
      (ntohs arphdr.op ≠ ARP_OP_REQUEST ∨ ntohl arphdr.tip ≠ localIp) then .dropped
  else .arp arphdr.sha (ntohl arphdr.sip)

/-- What a host with the address `localIp` makes of a frame. -/
def received (localIp : BitVec 32) (frame : List UInt8) : Received :=
  let type := ntohs (Eth.ofBytes (frame.take Eth.size)).type
  if frame.length < Eth.size then .dropped
  else if type = ETHTYPE_IP then receivedIp localIp (frame.drop Eth.size)
  else if type = ETHTYPE_ARP then receivedArp localIp (frame.drop Eth.size)
  else .dropped

namespace Net

/-- The packet buffer `m` without its first `k` bytes. -/
def pulled (s : Net) (m k : Nat) : Net :=
  s.setMbuf m fun mbuf => { mbuf with len := mbuf.len - BitVec.ofNat 32 k, head := mbuf.head + k }

/-- The packet buffer `m` with `count` bytes behind the first `k` ones. -/
def clipped (s : Net) (m k count : Nat) : Net :=
  s.setMbuf m fun mbuf => { mbuf with len := BitVec.ofNat 32 count, head := mbuf.head + k }

end Net

/-- Do what is to be done with the frame in the packet buffer `m`. -/
def Host.handle (h : Host) (m : Nat) : Received → Except Fault Host
  | .dropped => .ok (h.drop h.net m)
  | .arp sha sip => do
      let h ← netTxArp { h with net := h.net.pulled m (Eth.size + Arp.size) } ARP_OP_REPLY sha sip
      return h.drop h.net m
  | .udp payload raddr lport rport => do
      let net ← (h.net.clipped m (Eth.size + Ip.size + Udp.size) payload.length).sockrecvudp
        m raddr lport rport
      return { h with net := net }

namespace Net

variable {s : Net} {m k n : Nat}

@[simp] theorem setMbuf_self (s : Net) (m : Nat) (f : Mbuf → Mbuf) :
    (s.setMbuf m f).mbuf m = f (s.mbuf m) := Function.update_self ..

@[simp] theorem setMbuf_setMbuf (s : Net) (m : Nat) (f g : Mbuf → Mbuf) :
    (s.setMbuf m f).setMbuf m g = s.setMbuf m fun mbuf => g (f mbuf) := by
  simp [setMbuf]

@[simp] theorem length_data (s : Net) (m : Nat) : (s.data m).length = (s.mbuf m).len.toNat := by
  simp [data]

/-- What was in a packet buffer does not matter when it is freed. -/
@[simp] theorem kfree_setMbuf (s : Net) (m : Nat) (f : Mbuf → Mbuf) :
    (s.setMbuf m f).kfree m = s.kfree m := by
  simp [kfree, setMbuf, setSock]

theorem len_pulled (inside : k ≤ (s.data m).length) :
    ((s.pulled m k).mbuf m).len.toNat = (s.data m).length - k := by
  rw [length_data] at inside ⊢
  have := (s.mbuf m).len.isLt
  simp only [pulled, setMbuf_self, BitVec.toNat_sub, BitVec.toNat_ofNat]
  omega

theorem pulled_zero (s : Net) (m : Nat) : s.pulled m 0 = s := by
  simp [pulled, setMbuf]

theorem pulled_pulled (s : Net) (m k n : Nat) : (s.pulled m k).pulled m n = s.pulled m (k + n) := by
  have sub : ∀ len : BitVec 32, len - BitVec.ofNat 32 k - BitVec.ofNat 32 n =
      len - BitVec.ofNat 32 (k + n) := by
    intro len
    rw [BitVec.ofNat_add]
    grind
  simp only [pulled, setMbuf_setMbuf, Nat.add_assoc, sub]

/-- `mbufpull` behind the first `k` bytes of a frame. -/
theorem mbufpull_pulled (inside : k ≤ (s.data m).length) : (s.pulled m k).mbufpull m n =
    if (s.data m).length < k + n then none else some ((s.mbuf m).head + k, s.pulled m (k + n)) := by
  rw [mbufpull, len_pulled inside]
  refine if_congr (by omega) rfl ?_
  rw [← pulled_pulled]
  simp only [pulled, setMbuf_self]

/-- A header inside the frame is read as the bytes of the frame. -/
theorem loadHdr_pulled {j : Nat} (inside : k + n ≤ (s.data m).length) :
    (s.pulled m j).loadHdr m (s.mbuf m).head ((s.mbuf m).head + (s.mbuf m).len.toNat)
      ((s.mbuf m).head + k) n = .ok (((s.data m).drop k).take n) := by
  have bounded : n ≤ (s.mbuf m).len.toNat - k ∧ k + n ≤ (s.mbuf m).len.toNat := by
    rw [length_data] at inside
    omega
  rw [loadHdr, if_pos (by omega), pulled, setMbuf_self, data, Bytes.drop_slice,
    Bytes.take_slice _ _ bounded.1]

theorem loadHdr_clipped {j count : Nat} (inside : k + n ≤ (s.data m).length) :
    (s.clipped m j count).loadHdr m (s.mbuf m).head ((s.mbuf m).head + (s.mbuf m).len.toNat)
      ((s.mbuf m).head + k) n = .ok (((s.data m).drop k).take n) := by
  rw [← loadHdr_pulled (j := j) inside, loadHdr, loadHdr, clipped, pulled, setMbuf_self, setMbuf_self]

/-- `mbuftrim` leaves the first `count` bytes of what is left. -/
theorem mbuftrim_pulled (s : Net) (m k : Nat) {count : BitVec 32}
    (inside : count ≤ ((s.pulled m k).mbuf m).len) :
    ((s.pulled m k).mbuftrim m (((s.pulled m k).mbuf m).len - count)).map Prod.snd =
      some (s.clipped m k count.toNat) := by
  have left : ∀ len : BitVec 32, len - (len - count) = count := fun len => by grind
  have trims : ¬ ((s.pulled m k).mbuf m).len - count > ((s.pulled m k).mbuf m).len := by
    rw [BitVec.le_def] at inside
    rw [gt_iff_lt, BitVec.lt_def, BitVec.toNat_sub_of_le inside]
    omega
  rw [mbuftrim, if_neg trims]
  simp only [pulled, clipped, setMbuf, Function.update_self, Function.update_idem, left,
    Option.map_some, BitVec.ofNat_toNat, BitVec.setWidth_eq]

theorem data_clipped {count : Nat} (inside : k + count ≤ (s.data m).length) :
    (s.clipped m k count).data m = ((s.data m).drop k).take count := by
  rw [length_data] at inside
  have := (s.mbuf m).len.isLt
  simp only [data, clipped, setMbuf_self, BitVec.toNat_ofNat]
  rw [Bytes.drop_slice, Bytes.take_slice _ _ (by omega), Nat.mod_eq_of_lt (by omega)]

end Net

namespace Host

variable {h : Host} {m : Nat}

theorem drop_pulled (h : Host) (m k : Nat) (net : Net) :
    ({ h with net := net }).drop (h.net.pulled m k) m = h.drop h.net m := by
  simp only [drop, Net.mbuffree, Net.pulled, Net.kfree_setMbuf]

theorem netRxUdp_eq {len : BitVec 16}
    (inside : Eth.size + Ip.size ≤ (h.net.data m).length) :
    netRxUdp { h with net := h.net.pulled m (Eth.size + Ip.size) } (h.net.mbuf m).head
        ((h.net.mbuf m).head + (h.net.mbuf m).len.toNat) m len ((h.net.mbuf m).head + Eth.size) =
      h.handle m (receivedUdp len (Ip.ofBytes (((h.net.data m).drop Eth.size).take Ip.size)).src
        ((h.net.data m).drop (Eth.size + Ip.size))) := by
  rw [netRxUdp]
  simp only [Net.mbufpull_pulled inside]
  by_cases short : (h.net.data m).length < Eth.size + Ip.size + Udp.size
  · have dropped : ((h.net.data m).drop (Eth.size + Ip.size)).length < Udp.size := by
      rw [List.length_drop]
      omega
    rw [if_pos short, receivedUdp, if_pos (.inl dropped)]
    exact congrArg _ (drop_pulled ..)
  · have long : ¬ ((h.net.data m).drop (Eth.size + Ip.size)).length < Udp.size := by
      rw [List.length_drop]
      omega
    simp only [if_neg short, Net.loadHdr_pulled (not_lt.mp short), ok_bind]
    rw [receivedUdp]
    set packet := (h.net.data m).drop (Eth.size + Ip.size) with isPacket
    by_cases lengths : ntohs (Udp.ofBytes (packet.take Udp.size)).ulen ≠ len
    · rw [if_pos lengths, if_pos (.inr (.inl lengths))]
      exact congrArg _ (drop_pulled ..)
    · rw [if_neg lengths]
      have left := Net.len_pulled (not_lt.mp short)
      have rest : (packet.drop Udp.size).length =
          (h.net.data m).length - (Eth.size + Ip.size + Udp.size) := by
        rw [isPacket, List.drop_drop, List.length_drop]
      set payload := len - BitVec.ofNat 16 Udp.size
      have wide : (payload.setWidth 32).toNat = payload.toNat := by
        have := payload.isLt
        rw [BitVec.toNat_setWidth, Nat.mod_eq_of_lt (by omega)]
      by_cases fits : (packet.drop Udp.size).length < payload.toNat
      · have tooLong : payload.setWidth 32 >
            ((h.net.pulled m (Eth.size + Ip.size + Udp.size)).mbuf m).len := by
          rw [gt_iff_lt, BitVec.lt_def, wide, left]
          omega
        rw [if_pos tooLong, if_pos (.inr (.inr fits))]
        exact congrArg _ (drop_pulled ..)
      · have trims : payload.setWidth 32 ≤
            ((h.net.pulled m (Eth.size + Ip.size + Udp.size)).mbuf m).len := by
          rw [BitVec.le_def, wide, left]
          omega
        have taken : ((packet.drop Udp.size).take payload.toNat).length = payload.toNat := by
          rw [List.length_take]
          omega
        have read : Eth.size + Ip.size ≤ (h.net.data m).length := inside
        rw [if_neg (by rw [BitVec.not_lt]; exact trims), if_neg (by tauto)]
        simp only [Net.mbuftrim_pulled _ _ _ trims, Option.getD_some, Net.loadHdr_clipped read,
          ok_bind, wide, handle, taken]

theorem netRxIp_eq (inside : Eth.size ≤ (h.net.data m).length) :
    netRxIp { h with net := h.net.pulled m Eth.size } (h.net.mbuf m).head
        ((h.net.mbuf m).head + (h.net.mbuf m).len.toNat) m =
      h.handle m (receivedIp h.localIp ((h.net.data m).drop Eth.size)) := by
  rw [netRxIp]
  simp only [Net.mbufpull_pulled inside]
  by_cases short : (h.net.data m).length < Eth.size + Ip.size
  · have dropped : ((h.net.data m).drop Eth.size).length < Ip.size := by
      rw [List.length_drop]
      omega
    rw [if_pos short, receivedIp, if_pos (.inl dropped)]
    exact congrArg _ (drop_pulled ..)
  · have long : ¬ ((h.net.data m).drop Eth.size).length < Ip.size := by
      rw [List.length_drop]
      omega
    have next := fun len => @netRxUdp_eq h m len (not_lt.mp short)
    have drops : ({ h with net := h.net.pulled m Eth.size } : Host).drop
        (h.net.pulled m (Eth.size + Ip.size)) m = h.drop h.net m := drop_pulled ..
    simp only [if_neg short, Net.loadHdr_pulled (not_lt.mp short), ok_bind, drops]
    simp only [receivedIp, List.drop_drop, long, false_or, ite_or, apply_ite (h.handle m), next]
    rfl

theorem netRxArp_eq (inside : Eth.size ≤ (h.net.data m).length) :
    netRxArp { h with net := h.net.pulled m Eth.size } (h.net.mbuf m).head
        ((h.net.mbuf m).head + (h.net.mbuf m).len.toNat) m =
      h.handle m (receivedArp h.localIp ((h.net.data m).drop Eth.size)) := by
  rw [netRxArp]
  simp only [Net.mbufpull_pulled inside]
  by_cases short : (h.net.data m).length < Eth.size + Arp.size
  · have dropped : ((h.net.data m).drop Eth.size).length < Arp.size := by
      rw [List.length_drop]
      omega
    rw [if_pos short, receivedArp, if_pos (.inl dropped)]
    exact congrArg _ (drop_pulled ..)
  · have long : ¬ ((h.net.data m).drop Eth.size).length < Arp.size := by
      rw [List.length_drop]
      omega
    have drops : ({ h with net := h.net.pulled m Eth.size } : Host).drop
        (h.net.pulled m (Eth.size + Arp.size)) m = h.drop h.net m := drop_pulled ..
    simp only [if_neg short, Net.loadHdr_pulled (not_lt.mp short), ok_bind, drops]
    simp only [receivedArp, long, false_or, ite_or, apply_ite (h.handle m)]
    rfl

/-- `net_rx` does with a frame what is to be done with it. -/
theorem netRx_eq (h : Host) (m : Nat) : h.netRx m = h.handle m (received h.localIp (h.net.data m)) := by
  have start := Net.mbufpull_pulled (s := h.net) (m := m) (k := 0) (n := Eth.size) (Nat.zero_le _)
  rw [Net.pulled_zero] at start
  rw [netRx]
  simp only [start, Nat.zero_add, Nat.add_zero]
  by_cases short : (h.net.data m).length < Eth.size
  · rw [if_pos short, received, if_pos short]
    rfl
  · have drops : h.drop (h.net.pulled m Eth.size) m = h.drop h.net m := drop_pulled ..
    have read := Net.loadHdr_pulled (s := h.net) (m := m) (k := 0) (n := Eth.size) (j := Eth.size)
      (by omega)
    rw [Nat.add_zero, List.drop_zero] at read
    simp only [if_neg short, read, ok_bind, drops, netRxIp_eq (not_lt.mp short),
      netRxArp_eq (not_lt.mp short), received, apply_ite (h.handle m)]
    rfl

end Host

end Riscv2os.Xv7
