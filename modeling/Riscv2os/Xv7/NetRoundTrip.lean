import Riscv2os.Xv7.NetReceive

/-!
# The stack understands itself

Every header that the transmit path fills in is read back by the receive path, the checksum
of `net_tx_ip` verifies, and so a frame of `net_tx_udp` is delivered with the payload and
the ports that it was sent with.
-/

namespace Riscv2os.Xv7

open Riscv2os.Std
open Packet (word16 word32 byteOf bytes16 bytes32)

theorem bswaps_bswaps (val : BitVec 16) : bswaps (bswaps val) = val := by
  ext i hi
  simp only [bswaps]
  interval_cases i <;> simp

theorem bswapl_bswapl (val : BitVec 32) : bswapl (bswapl val) = val := by
  ext i hi
  simp only [bswapl]
  interval_cases i <;> simp

theorem ntohs_htons (val : BitVec 16) : ntohs (htons val) = val := bswaps_bswaps val

theorem ntohl_htonl (val : BitVec 32) : ntohl (htonl val) = val := bswapl_bswapl val

theorem Eth.ofBytes_toBytes (hdr : Eth) : Eth.ofBytes hdr.toBytes = hdr := by
  obtain ⟨dhost, shost, type⟩ := hdr
  simp only [Eth.ofBytes, Eth.toBytes, bytes16, Eth.mk.injEq]
  refine ⟨?_, ?_, ?_⟩
  · funext i
    fin_cases i <;> rfl
  · funext i
    fin_cases i <;> rfl
  · simp [List.ofFn_succ]

theorem Ip.ofBytes_toBytes (hdr : Ip) : Ip.ofBytes hdr.toBytes = hdr := by
  simp [Ip.ofBytes, Ip.toBytes, bytes16, bytes32]

theorem Udp.ofBytes_toBytes (hdr : Udp) : Udp.ofBytes hdr.toBytes = hdr := by
  simp [Udp.ofBytes, Udp.toBytes, bytes16]

/-- The words of a header that `in_cksum` adds up. -/
def wordSum : List UInt8 → Nat
  | b0 :: b1 :: w => (word16 b0 b1).toNat + wordSum w
  | [b0] => (word16 b0 0).toNat
  | [] => 0

theorem cksumLoop_eq (addr : List UInt8) (sum : BitVec 32) :
    cksumLoop addr sum = sum + BitVec.ofNat 32 (wordSum addr) := by
  induction addr using wordSum.induct generalizing sum with
  | case1 b0 b1 w ih =>
      rw [cksumLoop, ih, wordSum, BitVec.ofNat_add, BitVec.ofNat_toNat, BitVec.add_assoc]
  | case2 b0 => rw [cksumLoop, wordSum, BitVec.ofNat_toNat]
  | case3 => simp [cksumLoop, wordSum]

/-- `in_cksum` is the Internet checksum. -/
theorem toNat_inCksum {addr : List UInt8} (small : wordSum addr < 2 ^ 32) :
    (inCksum addr).toNat = Checksum.checksum (wordSum addr) := by
  have sum : (cksumLoop addr 0).toNat = wordSum addr := by
    rw [cksumLoop_eq, BitVec.ofNat_eq_ofNat, BitVec.zero_add, BitVec.toNat_ofNat,
      Nat.mod_eq_of_lt small]
  have low : ∀ v : BitVec 32, (v &&& 0xffff#32).toNat = v.toNat % 65536 := fun v => by
    rw [BitVec.toNat_and]
    exact Nat.and_two_pow_sub_one_eq_mod v.toNat 16
  have high : ∀ v : BitVec 32, (v >>> 16).toNat = v.toNat / 65536 := fun v => by
    rw [BitVec.toNat_ushiftRight, Nat.shiftRight_eq_div_pow]
  simp only [inCksum, BitVec.toNat_setWidth, BitVec.toNat_not, BitVec.toNat_add, low, high, sum,
    Checksum.checksum, Checksum.fold]
  omega

theorem wordSum_toBytes (hdr : Ip) :
    wordSum hdr.toBytes = wordSum { hdr with sum := 0 }.toBytes + hdr.sum.toNat := by
  have zero : (word16 (byteOf (0 : BitVec 16) 0) (byteOf (0 : BitVec 16) 1)).toNat = 0 := by
    rw [Packet.word16_bytes]
    rfl
  simp only [Ip.toBytes, bytes16, bytes32, List.cons_append, List.nil_append, wordSum, zero]
  rw [Packet.word16_bytes hdr.sum]
  omega

theorem wordSum_le (addr : List UInt8) : wordSum addr ≤ 65535 * addr.length := by
  induction addr using wordSum.induct with
  | case1 b0 b1 w ih =>
      have := (word16 b0 b1).isLt
      simp only [wordSum, List.length_cons]
      omega
  | case2 b0 =>
      have := (word16 b0 0).isLt
      simp only [wordSum, List.length_cons, List.length_nil]
      omega
  | case3 => simp [wordSum]

/-- A header that is filled with its checksum verifies. -/
theorem inCksum_filled (hdr : Ip) :
    inCksum { hdr with sum := inCksum { hdr with sum := 0 }.toBytes }.toBytes = 0 := by
  refine BitVec.eq_of_toNat_eq ?_
  have bound := fun hdr : Ip => wordSum_le hdr.toBytes
  simp only [Ip.length_toBytes, Ip.size] at bound
  have small := fun hdr : Ip => lt_of_le_of_lt (bound hdr) (by norm_num : 65535 * 20 < 2 ^ 32 - 65536)
  rw [toNat_inCksum (by have := small { hdr with sum := inCksum { hdr with sum := 0 }.toBytes }; omega),
    wordSum_toBytes]
  rw [toNat_inCksum (by have := small { hdr with sum := 0 }; omega)]
  exact Checksum.checksum_add (small { hdr with sum := 0 })

/-- A frame whose headers pass the checks and whose lengths agree is delivered. -/
theorem received_headers (eth : Eth) (ip : Ip) (udp : Udp) (payload : List UInt8)
    (type : ntohs eth.type = ETHTYPE_IP) (version : ip.vhl = IP_VHL)
    (verifies : inCksum ip.toBytes = 0) (whole : htons ip.off = 0) (proto : ip.p = IPPROTO_UDP)
    (lengths : ntohs udp.ulen = ntohs ip.len - BitVec.ofNat 16 Ip.size)
    (length : (ntohs udp.ulen - BitVec.ofNat 16 Udp.size).toNat = payload.length) :
    received (htonl ip.dst) (eth.toBytes ++ (ip.toBytes ++ (udp.toBytes ++ payload))) =
      .udp payload (ntohl ip.src) (ntohs udp.dport) (ntohs udp.sport) := by
  have ethhdr : (eth.toBytes ++ (ip.toBytes ++ (udp.toBytes ++ payload))).take Eth.size =
      eth.toBytes := List.take_left' eth.length_toBytes
  have packet : (eth.toBytes ++ (ip.toBytes ++ (udp.toBytes ++ payload))).drop Eth.size =
      ip.toBytes ++ (udp.toBytes ++ payload) := List.drop_left' eth.length_toBytes
  have iphdr : (ip.toBytes ++ (udp.toBytes ++ payload)).take Ip.size = ip.toBytes :=
    List.take_left' ip.length_toBytes
  have datagram : (ip.toBytes ++ (udp.toBytes ++ payload)).drop Ip.size = udp.toBytes ++ payload :=
    List.drop_left' ip.length_toBytes
  have udphdr : (udp.toBytes ++ payload).take Udp.size = udp.toBytes :=
    List.take_left' udp.length_toBytes
  have rest : (udp.toBytes ++ payload).drop Udp.size = payload := List.drop_left' udp.length_toBytes
  have long : ∀ (hdr tail : List UInt8) (n : Nat), hdr.length = n → ¬ (hdr ++ tail).length < n := by
    intro hdr tail n same
    rw [List.length_append]
    omega
  rw [received, ethhdr, packet, Eth.ofBytes_toBytes, if_neg (long _ _ _ eth.length_toBytes),
    if_pos type, receivedIp, iphdr, datagram, Ip.ofBytes_toBytes,
    if_neg (by have := long ip.toBytes (udp.toBytes ++ payload) _ ip.length_toBytes; tauto),
    receivedUdp, udphdr, rest, Udp.ofBytes_toBytes, ← lengths, length, List.take_length,
    if_neg (by simp)]

namespace Net

variable {s : Net} {m k : Nat}

/-- The packet buffer `m` with a header in front of its data. -/
def headed (s : Net) (m : Nat) (hdr : List UInt8) : Net :=
  s.setMbuf m fun mbuf =>
    { mbuf with
      head := mbuf.head - hdr.length
      len := mbuf.len + BitVec.ofNat 32 hdr.length
      buf := mbuf.buf.splice (mbuf.head - hdr.length) hdr }

/-- The packet buffer `m` after `mbufpush`. -/
def pushed (s : Net) (m k : Nat) : Net :=
  s.setMbuf m fun mbuf => { mbuf with head := mbuf.head - k, len := mbuf.len + BitVec.ofNat 32 k }

theorem mbufpush_eq (room : k ≤ (s.mbuf m).head) :
    s.mbufpush m k = .ok ((s.mbuf m).head - k, s.pushed m k) := if_neg (not_lt.mpr room)

theorem len_pushed (s : Net) (m k : Nat) : ((s.pushed m k).mbuf m).len.setWidth 16 =
    BitVec.ofNat 16 ((s.data m).length + k) := by
  refine BitVec.eq_of_toNat_eq ?_
  rw [length_data]
  simp only [pushed, setMbuf_self, BitVec.toNat_setWidth, BitVec.toNat_add, BitVec.toNat_ofNat]
  omega

theorem storeHdr_pushed (s : Net) (m : Nat) (hdr : List UInt8)
    (inside : (s.mbuf m).head ≤ MBUF_ROOM) (room : hdr.length ≤ (s.mbuf m).head) :
    (s.pushed m hdr.length).storeHdr m ((s.mbuf m).head - hdr.length) hdr = .ok (s.headed m hdr) := by
  rw [storeHdr, if_pos (by omega), pushed, setMbuf_setMbuf, headed]
  simp only [setMbuf]

theorem head_headed (s : Net) (m : Nat) (hdr : List UInt8) :
    ((s.headed m hdr).mbuf m).head = (s.mbuf m).head - hdr.length := by
  simp [headed]

theorem len_headed {hdr : List UInt8} (small : (s.data m).length + hdr.length < 2 ^ 32) :
    ((s.headed m hdr).mbuf m).len.toNat = (s.data m).length + hdr.length := by
  rw [length_data] at small ⊢
  simp only [headed, setMbuf_self, BitVec.toNat_add, BitVec.toNat_ofNat]
  omega

theorem data_headed (s : Net) (m : Nat) (hdr : List UInt8) (room : hdr.length ≤ (s.mbuf m).head)
    (inside : (s.mbuf m).head + (s.data m).length ≤ MBUF_ROOM) :
    (s.headed m hdr).data m = hdr ++ s.data m := by
  have small : (s.data m).length + hdr.length < 2 ^ 32 := by
    simp only [MBUF_ROOM, PGSIZE] at inside
    omega
  rw [data, len_headed small, head_headed, Nat.add_comm, Bytes.slice_add, Nat.sub_add_cancel room, headed,
    setMbuf_self, Bytes.slice_splice_self _ (by omega), Bytes.slice_splice_apart _ (.inr (by omega)),
    length_data]
  rfl

end Net

namespace Host

variable {h : Host} {m : Nat}

/-- The bytes that the device fetches for a slot of its ring. -/
def frame (h : Host) (slot : Fin TX_RING_SIZE) : List UInt8 :=
  (h.net.mbuf (h.txRing slot).addr.1).buf.slice (h.txRing slot).addr.2 (h.txRing slot).length.toNat

/-- The next slot of the ring takes the packet buffer `m`, which is not there yet. -/
def Takes (h : Host) (m : Nat) : Prop :=
  (h.txRing h.tdt).status &&& E1000_RXD_STAT_DD ≠ 0 ∧ h.txMbufs h.tdt ≠ m

theorem e1000Transmit_frame (takes : h.Takes m) (small : (h.net.data m).length < 2 ^ 16) :
    ∃ h', h.e1000Transmit m = some h' ∧ h'.frame h.tdt = h.net.data m := by
  refine ⟨_, if_neg takes.1, ?_⟩
  have kept : (if h.txMbufs h.tdt ≠ 0 then h.net.mbuffree (h.txMbufs h.tdt) else h.net).mbuf m =
      h.net.mbuf m := by
    split
    · exact Function.update_of_ne takes.2.symm ..
    · rfl
  rw [Net.length_data] at small
  simp only [frame, Function.update_self, kept, BitVec.toNat_setWidth, Nat.mod_eq_of_lt small]
  rfl

theorem netTxEth_frame (takes : h.Takes m) (ethtype : BitVec 16) (room : Eth.size ≤ (h.net.mbuf m).head)
    (inside : (h.net.mbuf m).head + (h.net.data m).length ≤ MBUF_ROOM) :
    ∃ h', h.netTxEth m ethtype = .ok h' ∧ h'.frame h.tdt =
      Eth.toBytes { shost := localMac, dhost := broadcastMac, type := htons ethtype } ++ h.net.data m := by
  set hdr : Eth := { shost := localMac, dhost := broadcastMac, type := htons ethtype }
  have stores := h.net.storeHdr_pushed m hdr.toBytes (by omega) (by simpa)
  have data := h.net.data_headed m hdr.toBytes (by simpa) inside
  have small : ((h.net.headed m hdr.toBytes).data m).length < 2 ^ 16 := by
    rw [data, List.length_append, Eth.length_toBytes]
    simp only [MBUF_ROOM, PGSIZE] at inside
    omega
  obtain ⟨h', sent, frame⟩ := e1000Transmit_frame (m := m)
    (h := { h with net := h.net.headed m hdr.toBytes }) takes small
  rw [Eth.length_toBytes] at stores
  refine ⟨h', ?_, frame.trans data⟩
  rw [netTxEth, Net.mbufpush_eq room]
  simp only [ok_bind]
  rw [stores]
  simp only [ok_bind, sent]
  rfl

theorem netTxIp_frame (takes : h.Takes m) (proto : UInt8) (dip : BitVec 32)
    (room : Eth.size + Ip.size ≤ (h.net.mbuf m).head)
    (inside : (h.net.mbuf m).head + (h.net.data m).length ≤ MBUF_ROOM) :
    ∃ h' eth, h.netTxIp m proto dip = .ok h' ∧ ntohs eth.type = ETHTYPE_IP ∧ h'.frame h.tdt =
      Eth.toBytes eth ++ ((h.ipHeader proto dip
        (BitVec.ofNat 16 ((h.net.data m).length + Ip.size))).toBytes ++ h.net.data m) := by
  generalize isHdr : h.ipHeader proto dip (BitVec.ofNat 16 ((h.net.data m).length + Ip.size)) = hdr
  have stores := h.net.storeHdr_pushed m hdr.toBytes (by omega) (by rw [Ip.length_toBytes]; omega)
  have data := h.net.data_headed m hdr.toBytes (by rw [Ip.length_toBytes]; omega) inside
  have head := h.net.head_headed m hdr.toBytes
  have length : (hdr.toBytes ++ h.net.data m).length = Ip.size + (h.net.data m).length := by
    rw [List.length_append, Ip.length_toBytes]
  rw [Ip.length_toBytes] at stores head
  have next := netTxEth_frame (m := m) (h := { h with net := h.net.headed m hdr.toBytes }) takes
    ETHTYPE_IP
  simp only [head, data, length] at next
  obtain ⟨h', sent, frame⟩ := next (by omega) (by omega)
  refine ⟨h', _, ?_, ?_, frame⟩
  case refine_2 => exact ntohs_htons ETHTYPE_IP
  rw [netTxIp, Net.mbufpush_eq (by omega)]
  simp only [ok_bind, Net.len_pushed, isHdr]
  rw [stores]
  exact sent

theorem netTxUdp_frame (takes : h.Takes m) (dip : BitVec 32) (sport dport : BitVec 16)
    (room : Eth.size + Ip.size + Udp.size ≤ (h.net.mbuf m).head)
    (inside : (h.net.mbuf m).head + (h.net.data m).length ≤ MBUF_ROOM) :
    ∃ h' eth, h.netTxUdp m dip sport dport = .ok h' ∧ ntohs eth.type = ETHTYPE_IP ∧
      h'.frame h.tdt = Eth.toBytes eth ++
        ((h.ipHeader IPPROTO_UDP dip
          (BitVec.ofNat 16 ((h.net.data m).length + Udp.size + Ip.size))).toBytes ++
          ((udpHeader sport dport (BitVec.ofNat 16 ((h.net.data m).length + Udp.size))).toBytes ++
            h.net.data m)) := by
  generalize isHdr : udpHeader sport dport (BitVec.ofNat 16 ((h.net.data m).length + Udp.size)) = hdr
  have stores := h.net.storeHdr_pushed m hdr.toBytes (by omega) (by rw [Udp.length_toBytes]; omega)
  have data := h.net.data_headed m hdr.toBytes (by rw [Udp.length_toBytes]; omega) inside
  have head := h.net.head_headed m hdr.toBytes
  have length : (hdr.toBytes ++ h.net.data m).length = (h.net.data m).length + Udp.size := by
    rw [List.length_append, Udp.length_toBytes, Nat.add_comm]
  rw [Udp.length_toBytes] at stores head
  have next := netTxIp_frame (m := m) (h := { h with net := h.net.headed m hdr.toBytes }) takes
    IPPROTO_UDP dip
  simp only [head, data, length] at next
  obtain ⟨h', eth, sent, type, frame⟩ := next (by omega) (by omega)
  refine ⟨h', eth, ?_, type, frame⟩
  rw [netTxUdp, Net.mbufpush_eq (by omega)]
  simp only [ok_bind, Net.len_pushed, isHdr]
  rw [stores]
  exact sent

/-- What a host makes of a frame that is sent to it by `net_tx_udp`. -/
theorem received_netTxUdp (h : Host) (dip : BitVec 32) (sport dport : BitVec 16) {eth : Eth}
    (payload : List UInt8) (type : ntohs eth.type = ETHTYPE_IP)
    (small : payload.length + Udp.size + Ip.size < 2 ^ 16) :
    received dip (eth.toBytes ++
      ((h.ipHeader IPPROTO_UDP dip (BitVec.ofNat 16 (payload.length + Udp.size + Ip.size))).toBytes ++
        ((udpHeader sport dport (BitVec.ofNat 16 (payload.length + Udp.size))).toBytes ++
          payload))) = .udp payload h.localIp dport sport := by
  have lengths : ntohs (htons (BitVec.ofNat 16 (payload.length + Udp.size))) =
      ntohs (htons (BitVec.ofNat 16 (payload.length + Udp.size + Ip.size))) -
        BitVec.ofNat 16 Ip.size := by
    rw [ntohs_htons, ntohs_htons, BitVec.ofNat_add _ Ip.size]
    grind
  have length : (ntohs (htons (BitVec.ofNat 16 (payload.length + Udp.size))) -
      BitVec.ofNat 16 Udp.size).toNat = payload.length := by
    have plain : BitVec.ofNat 16 (payload.length + Udp.size) - BitVec.ofNat 16 Udp.size =
        BitVec.ofNat 16 payload.length := by
      rw [BitVec.ofNat_add]
      grind
    rw [ntohs_htons, plain, BitVec.toNat_ofNat, Nat.mod_eq_of_lt (by omega)]
  have accepted := received_headers eth
    (h.ipHeader IPPROTO_UDP dip (BitVec.ofNat 16 (payload.length + Udp.size + Ip.size)))
    (udpHeader sport dport (BitVec.ofNat 16 (payload.length + Udp.size))) payload
    type rfl (inCksum_filled _) (show htons 0 = 0 by decide) rfl lengths length
  simp only [ipHeader, udpHeader, ntohl_htonl, ntohs_htons] at accepted ⊢
  exact accepted

end Host

/-- A frame that `net_tx_udp` hands to the device, received by the host that it is for, goes to
`sockrecvudp` with the payload, the source port and the destination port it was sent with. -/
theorem udp_accepted {h : Host} {m : Nat} (dip : BitVec 32) (sport dport : BitVec 16)
    (takes : h.Takes m) (room : Eth.size + Ip.size + Udp.size ≤ (h.net.mbuf m).head)
    (inside : (h.net.mbuf m).head + (h.net.data m).length ≤ MBUF_ROOM) :
    ∃ h', h.netTxUdp m dip sport dport = .ok h' ∧
      ∀ (r : Host) (m' : Nat), r.localIp = dip → r.net.data m' = h'.frame h.tdt →
        let delivered := r.net.clipped m' (Eth.size + Ip.size + Udp.size) (h.net.data m).length
        delivered.data m' = h.net.data m ∧
          r.netRx m' = (do
            let net ← delivered.sockrecvudp m' h.localIp dport sport
            return { r with net := net }) := by
  obtain ⟨h', eth, sent, type, frame⟩ := h.netTxUdp_frame takes dip sport dport room inside
  refine ⟨h', sent, ?_⟩
  rintro r m' rfl received
  have small : (h.net.data m).length + Udp.size + Ip.size < 2 ^ 16 := by
    simp only [MBUF_ROOM, PGSIZE, Udp.size, Ip.size] at inside ⊢
    omega
  rw [frame] at received
  constructor
  · have headers : ∀ (ip : Ip) (udp : Udp) (payload : List UInt8),
        (eth.toBytes ++ (ip.toBytes ++ (udp.toBytes ++ payload))).drop (Eth.size + Ip.size + Udp.size) =
          payload := by
      intro ip udp payload
      rw [← List.append_assoc, ← List.append_assoc]
      exact List.drop_left' (by simp [Nat.add_assoc])
    rw [Net.data_clipped (by rw [received]; simp; omega), received, headers, List.take_length]
  · rw [Host.netRx_eq, received, Host.received_netTxUdp h r.localIp sport dport _ type small]
    rfl

/-- A host with the payload `[1, 2, 3]` in its only packet buffer, behind a headroom of 42 bytes. -/
def threeBytes : Host where
  net :=
    { freelist := []
      sock := fun _ => .filled 0
      mbuf := fun _ => ⟨0, 42, 3, Bytes.splice (fun _ => 0) 42 [1, 2, 3]⟩
      sockets := 0
      freeFiles := 0
      nlock := 0 }
  localIp := 0x0a00020f
  tdt := ⟨0, TX_RING_SIZE_pos⟩
  txRing := fun _ => ⟨(0, 0), 0, 0, E1000_RXD_STAT_DD⟩
  txMbufs := fun _ => 0

theorem udp_accepted_threeBytes : ∃ (h' r : Host) (m' : Nat),
    threeBytes.netTxUdp KERNBASE 0x0a000202 2000 7 = .ok h' ∧
    r.localIp = 0x0a000202 ∧ r.net.data m' = h'.frame 0 ∧
    r.netRx m' = (do
      let net ← (r.net.clipped m' 42 3).sockrecvudp m' 0x0a00020f 7 2000
      return { r with net := net }) := by
  have room : Eth.size + Ip.size + Udp.size ≤ (threeBytes.net.mbuf KERNBASE).head := by decide
  have inside : (threeBytes.net.mbuf KERNBASE).head + (threeBytes.net.data KERNBASE).length ≤
      MBUF_ROOM := by
    rw [Net.length_data]
    decide
  obtain ⟨h', sent, accepted⟩ := udp_accepted (h := threeBytes) 0x0a000202 2000 7
    ⟨by decide, by decide⟩ room inside
  let desc := h'.txRing 0
  let r : Host :=
    { h' with
      localIp := 0x0a000202
      net := { h'.net with
        mbuf := fun _ => ⟨0, desc.addr.2, desc.length.setWidth 32, (h'.net.mbuf desc.addr.1).buf⟩ } }
  have same : r.net.data 0 = h'.frame 0 := by
    have := desc.length.isLt
    simp only [Net.data, Host.frame, r, BitVec.toNat_setWidth]
    rw [Nat.mod_eq_of_lt (by omega)]
  have length : (threeBytes.net.data KERNBASE).length = 3 := by
    rw [Net.length_data]
    rfl
  have received := (accepted r 0 rfl same).2
  rw [length] at received
  exact ⟨h', r, 0, sent, rfl, same, received⟩

end Riscv2os.Xv7
