import Riscv2os.Std.Packets
import Riscv2os.Xv7.Sockets

/-!
# The network stack

`net.c` with the transmit side of `e1000.c`: packet buffers, the Ethernet, IP, UDP and ARP
headers, and the paths of a frame to the device and from it. A header is read as a run of
bytes of the packet buffer; the receive path carries the bounds of the frame, and a header
that reaches over them is a fault. The receive ring of the device is not part of the model:
`netRx` starts with the packet buffer that `e1000_recv` has filled.
-/

namespace Riscv2os.Xv7

open Riscv2os.Std
open Packet (word16 word32 byteOf bytes16 bytes32)

def MBUF_DEFAULT_HEADROOM : Nat := 128

def bswaps (val : BitVec 16) : BitVec 16 :=
  ((val &&& 0x00ff#16) <<< 8) ||| ((val &&& 0xff00#16) >>> 8)

def bswapl (val : BitVec 32) : BitVec 32 :=
  ((val &&& 0x000000ff#32) <<< 24) ||| ((val &&& 0x0000ff00#32) <<< 8) |||
    ((val &&& 0x00ff0000#32) >>> 8) ||| ((val &&& 0xff000000#32) >>> 24)

abbrev ntohs := bswaps
abbrev ntohl := bswapl
abbrev htons := bswaps
abbrev htonl := bswapl

abbrev ETHADDR_LEN : Nat := 6
def ETHTYPE_IP : BitVec 16 := 0x0800
def ETHTYPE_ARP : BitVec 16 := 0x0806
def IPPROTO_UDP : UInt8 := 17
def ARP_HRD_ETHER : BitVec 16 := 1
def ARP_OP_REQUEST : BitVec 16 := 1
def ARP_OP_REPLY : BitVec 16 := 2

/-- `(4 << 4) | (20 >> 2)`: IP version 4 and a header of 20 bytes. -/
def IP_VHL : UInt8 := UInt8.ofNat ((4 <<< 4) ||| (20 >>> 2))

def localMac : Bytes ETHADDR_LEN := ![0x52, 0x54, 0x00, 0x12, 0x34, 0x56]
def broadcastMac : Bytes ETHADDR_LEN := fun _ => 0xff

/-- `struct eth`. -/
structure Eth where
  dhost : Bytes ETHADDR_LEN
  shost : Bytes ETHADDR_LEN
  type : BitVec 16

/-- `struct ip`. -/
structure Ip where
  vhl : UInt8
  tos : UInt8
  len : BitVec 16
  id : BitVec 16
  off : BitVec 16
  ttl : UInt8
  p : UInt8
  sum : BitVec 16
  src : BitVec 32
  dst : BitVec 32

/-- `struct udp`. -/
structure Udp where
  sport : BitVec 16
  dport : BitVec 16
  ulen : BitVec 16
  sum : BitVec 16

/-- `struct arp`. -/
structure Arp where
  hrd : BitVec 16
  pro : BitVec 16
  hln : UInt8
  pln : UInt8
  op : BitVec 16
  sha : Bytes ETHADDR_LEN
  sip : BitVec 32
  tha : Bytes ETHADDR_LEN
  tip : BitVec 32

namespace Eth

/-- `sizeof(struct eth)`. -/
abbrev size : Nat := 14

def toBytes (hdr : Eth) : List UInt8 :=
  List.ofFn hdr.dhost ++ List.ofFn hdr.shost ++ bytes16 hdr.type

def ofBytes (b : List UInt8) : Eth where
  dhost i := b.getD i 0
  shost i := b.getD (6 + i) 0
  type := word16 (b.getD 12 0) (b.getD 13 0)

@[simp] theorem length_toBytes (hdr : Eth) : hdr.toBytes.length = size := by
  simp [toBytes, bytes16]

end Eth

namespace Ip

/-- `sizeof(struct ip)`. -/
abbrev size : Nat := 20

def toBytes (hdr : Ip) : List UInt8 :=
  [hdr.vhl, hdr.tos] ++ bytes16 hdr.len ++ bytes16 hdr.id ++ bytes16 hdr.off ++ [hdr.ttl, hdr.p] ++
    bytes16 hdr.sum ++ bytes32 hdr.src ++ bytes32 hdr.dst

def ofBytes (b : List UInt8) : Ip where
  vhl := b.getD 0 0
  tos := b.getD 1 0
  len := word16 (b.getD 2 0) (b.getD 3 0)
  id := word16 (b.getD 4 0) (b.getD 5 0)
  off := word16 (b.getD 6 0) (b.getD 7 0)
  ttl := b.getD 8 0
  p := b.getD 9 0
  sum := word16 (b.getD 10 0) (b.getD 11 0)
  src := word32 (b.getD 12 0) (b.getD 13 0) (b.getD 14 0) (b.getD 15 0)
  dst := word32 (b.getD 16 0) (b.getD 17 0) (b.getD 18 0) (b.getD 19 0)

@[simp] theorem length_toBytes (hdr : Ip) : hdr.toBytes.length = size := by
  simp [toBytes, bytes16, bytes32]

end Ip

namespace Udp

/-- `sizeof(struct udp)`. -/
abbrev size : Nat := 8

def toBytes (hdr : Udp) : List UInt8 :=
  bytes16 hdr.sport ++ bytes16 hdr.dport ++ bytes16 hdr.ulen ++ bytes16 hdr.sum

def ofBytes (b : List UInt8) : Udp where
  sport := word16 (b.getD 0 0) (b.getD 1 0)
  dport := word16 (b.getD 2 0) (b.getD 3 0)
  ulen := word16 (b.getD 4 0) (b.getD 5 0)
  sum := word16 (b.getD 6 0) (b.getD 7 0)

@[simp] theorem length_toBytes (hdr : Udp) : hdr.toBytes.length = size := by
  simp [toBytes, bytes16]

end Udp

namespace Arp

/-- `sizeof(struct arp)`. -/
abbrev size : Nat := 28

def toBytes (hdr : Arp) : List UInt8 :=
  bytes16 hdr.hrd ++ bytes16 hdr.pro ++ [hdr.hln, hdr.pln] ++ bytes16 hdr.op ++ List.ofFn hdr.sha ++
    bytes32 hdr.sip ++ List.ofFn hdr.tha ++ bytes32 hdr.tip

def ofBytes (b : List UInt8) : Arp where
  hrd := word16 (b.getD 0 0) (b.getD 1 0)
  pro := word16 (b.getD 2 0) (b.getD 3 0)
  hln := b.getD 4 0
  pln := b.getD 5 0
  op := word16 (b.getD 6 0) (b.getD 7 0)
  sha i := b.getD (8 + i) 0
  sip := word32 (b.getD 14 0) (b.getD 15 0) (b.getD 16 0) (b.getD 17 0)
  tha i := b.getD (18 + i) 0
  tip := word32 (b.getD 24 0) (b.getD 25 0) (b.getD 26 0) (b.getD 27 0)

@[simp] theorem length_toBytes (hdr : Arp) : hdr.toBytes.length = size := by
  simp [toBytes, bytes16, bytes32]

end Arp

/-- The loop of `in_cksum` with the odd byte at the end. -/
def cksumLoop : List UInt8 → BitVec 32 → BitVec 32
  | b0 :: b1 :: w, sum => cksumLoop w (sum + (word16 b0 b1).setWidth 32)
  | [b0], sum => sum + (word16 b0 0).setWidth 32
  | [], sum => sum

def inCksum (addr : List UInt8) : BitVec 16 :=
  let sum := cksumLoop addr 0
  let sum := (sum &&& 0xffff#32) + (sum >>> 16)
  let sum := sum + (sum >>> 16)
  (~~~sum).setWidth 16

namespace Net

/-- Strip data from the start of a packet buffer. The result is a pointer to it. -/
def mbufpull (s : Net) (m len : Nat) : Option (Nat × Net) :=
  let tmp := (s.mbuf m).head
  if (s.mbuf m).len.toNat < len then none
  else some (tmp, s.setMbuf m fun mbuf =>
    { mbuf with len := mbuf.len - BitVec.ofNat 32 len, head := mbuf.head + len })

/-- Prepend data to a packet buffer. -/
def mbufpush (s : Net) (m len : Nat) : Except Fault (Nat × Net) :=
  if (s.mbuf m).head < len then .error (.panic "mbufpush")
  else .ok ((s.mbuf m).head - len, s.setMbuf m fun mbuf =>
    { mbuf with head := mbuf.head - len, len := mbuf.len + BitVec.ofNat 32 len })

/-- Append data to a packet buffer. -/
def mbufput (s : Net) (m len : Nat) : Except Fault (Nat × Net) :=
  let tmp := (s.mbuf m).head + (s.mbuf m).len.toNat
  let s := s.setMbuf m fun mbuf => { mbuf with len := mbuf.len + BitVec.ofNat 32 len }
  if (s.mbuf m).len.toNat > MBUF_SIZE then .error (.panic "mbufput") else .ok (tmp, s)

/-- Strip data from the end of a packet buffer. -/
def mbuftrim (s : Net) (m : Nat) (len : BitVec 32) : Option (Nat × Net) :=
  if len > (s.mbuf m).len then none
  else
    let s := s.setMbuf m fun mbuf => { mbuf with len := mbuf.len - len }
    some ((s.mbuf m).head + (s.mbuf m).len.toNat, s)

def mbufalloc (s : Net) (headroom : Nat) : Option (Nat × Net) :=
  if headroom > MBUF_SIZE then none
  else
    match s.kalloc with
    | none => none
    | some (m, s) => some (m, s.setMbuf m fun mbuf =>
        { next := 0
          head := headroom
          len := 0
          buf := fun place => if place.val < MBUF_SIZE then 0 else mbuf.buf place })

def mbuffree (s : Net) (m : Nat) : Net := s.kfree m

/-- The data of a packet buffer. -/
def data (s : Net) (m : Nat) : List UInt8 :=
  (s.mbuf m).buf.slice (s.mbuf m).head (s.mbuf m).len.toNat

/-- Read a header of the frame between `lo` and `hi`. -/
def loadHdr (s : Net) (m lo hi p count : Nat) : Except Fault (List UInt8) :=
  if lo ≤ p ∧ p + count ≤ hi then .ok ((s.mbuf m).buf.slice p count) else .error .outOfBounds

/-- Fill a header in. -/
def storeHdr (s : Net) (m p : Nat) (hdr : List UInt8) : Except Fault Net :=
  if p + hdr.length ≤ MBUF_ROOM then
    .ok (s.setMbuf m fun mbuf => { mbuf with buf := mbuf.buf.splice p hdr })
  else .error .outOfBounds

end Net

abbrev TX_RING_SIZE : Nat := 16

theorem TX_RING_SIZE_pos : 0 < TX_RING_SIZE := by decide

def E1000_RXD_STAT_DD : UInt8 := 0x01
def E1000_TXD_CMD_EOP : UInt8 := 0x01
def E1000_TXD_CMD_RS : UInt8 := 0x08

/-- `struct tx_desc`. The address is a packet buffer with an offset in its array. -/
structure TxDesc where
  addr : Nat × Nat
  length : BitVec 16
  cmd : UInt8
  status : UInt8

/-- A host: its network with the transmit ring of its device. -/
structure Host where
  net : Net
  localIp : BitVec 32
  tdt : Fin TX_RING_SIZE
  txRing : Fin TX_RING_SIZE → TxDesc
  txMbufs : Fin TX_RING_SIZE → Nat

namespace Host

/-- Hand a packet buffer to the device, which frees the one sent before from the same slot.
The result is `none` for -1. -/
def e1000Transmit (h : Host) (m : Nat) : Option Host :=
  let descPos := h.tdt
  if (h.txRing descPos).status &&& E1000_RXD_STAT_DD = 0 then none
  else
    let net := if h.txMbufs descPos ≠ 0 then h.net.mbuffree (h.txMbufs descPos) else h.net
    some { h with
      net := net
      tdt := descPos + 1
      txMbufs := Function.update h.txMbufs descPos m
      txRing := Function.update h.txRing descPos
        { h.txRing descPos with
          addr := (m, (net.mbuf m).head)
          length := (net.mbuf m).len.setWidth 16
          cmd := E1000_TXD_CMD_RS ||| E1000_TXD_CMD_EOP } }

def netTxEth (h : Host) (m : Nat) (ethtype : BitVec 16) : Except Fault Host := do
  let (ethhdr, net) ← h.net.mbufpush m Eth.size
  let net ← net.storeHdr m ethhdr
    (Eth.toBytes { shost := localMac, dhost := broadcastMac, type := htons ethtype })
  let h := { h with net := net }
  match h.e1000Transmit m with
  | some h => return h
  | none => return { h with net := h.net.mbuffree m }

/-- The IP header of a packet with `len` bytes, as `net_tx_ip` fills it in. -/
def ipHeader (h : Host) (proto : UInt8) (dip : BitVec 32) (len : BitVec 16) : Ip :=
  let iphdr : Ip :=
    { vhl := IP_VHL
      tos := 0
      len := htons len
      id := 0
      off := 0
      ttl := 100
      p := proto
      sum := 0
      src := htonl h.localIp
      dst := htonl dip }
  { iphdr with sum := inCksum iphdr.toBytes }

def netTxIp (h : Host) (m : Nat) (proto : UInt8) (dip : BitVec 32) : Except Fault Host := do
  let (iphdr, net) ← h.net.mbufpush m Ip.size
  let net ← net.storeHdr m iphdr (h.ipHeader proto dip ((net.mbuf m).len.setWidth 16)).toBytes
  netTxEth { h with net := net } m ETHTYPE_IP

/-- The UDP header of a packet with `len` bytes. Zero for `sum` means no checksum. -/
def udpHeader (sport dport len : BitVec 16) : Udp where
  sport := htons sport
  dport := htons dport
  ulen := htons len
  sum := 0

def netTxUdp (h : Host) (m : Nat) (dip : BitVec 32) (sport dport : BitVec 16) : Except Fault Host := do
  let (udphdr, net) ← h.net.mbufpush m Udp.size
  let net ← net.storeHdr m udphdr (udpHeader sport dport ((net.mbuf m).len.setWidth 16)).toBytes
  netTxIp { h with net := net } m IPPROTO_UDP dip

/-- Send an ARP packet if there is a page for it. -/
def netTxArp (h : Host) (op : BitVec 16) (dmac : Bytes ETHADDR_LEN) (dip : BitVec 32) :
    Except Fault Host :=
  match h.net.mbufalloc MBUF_DEFAULT_HEADROOM with
  | none => .ok h
  | some (m, net) => do
      let (arphdr, net) ← net.mbufput m Arp.size
      let net ← net.storeHdr m arphdr
        (Arp.toBytes
          { hrd := htons ARP_HRD_ETHER
            pro := htons ETHTYPE_IP
            hln := UInt8.ofNat ETHADDR_LEN
            pln := 4
            op := htons op
            sha := localMac
            sip := htonl h.localIp
            tha := dmac
            tip := htonl dip })
      netTxEth { h with net := net } m ETHTYPE_ARP

/-- Free the packet buffer of a received frame. -/
def drop (h : Host) (net : Net) (m : Nat) : Host := { h with net := net.mbuffree m }

def netRxArp (h : Host) (lo hi m : Nat) : Except Fault Host :=
  match h.net.mbufpull m Arp.size with
  | none => .ok (h.drop h.net m)
  | some (arphdr, net) => do
      let arphdr := Arp.ofBytes (← net.loadHdr m lo hi arphdr Arp.size)
      if ntohs arphdr.hrd ≠ ARP_HRD_ETHER ∨ ntohs arphdr.pro ≠ ETHTYPE_IP ∨
          arphdr.hln ≠ UInt8.ofNat ETHADDR_LEN ∨ arphdr.pln ≠ 4 then
        return h.drop net m
      else if ntohs arphdr.op ≠ ARP_OP_REQUEST ∨ ntohl arphdr.tip ≠ h.localIp then
        return h.drop net m
      else do
        let h ← netTxArp { h with net := net } ARP_OP_REPLY arphdr.sha (ntohl arphdr.sip)
        return h.drop h.net m

def netRxUdp (h : Host) (lo hi m : Nat) (len : BitVec 16) (iphdr : Nat) : Except Fault Host :=
  match h.net.mbufpull m Udp.size with
  | none => .ok (h.drop h.net m)
  | some (udphdr, net) => do
      let udphdr := Udp.ofBytes (← net.loadHdr m lo hi udphdr Udp.size)
      if ntohs udphdr.ulen ≠ len then return h.drop net m
      else
        let len := len - BitVec.ofNat 16 Udp.size
        if len.setWidth 32 > (net.mbuf m).len then return h.drop net m
        else do
          let trimmed := net.mbuftrim m ((net.mbuf m).len - len.setWidth 32)
          let net := (trimmed.map Prod.snd).getD net
          let iphdr := Ip.ofBytes (← net.loadHdr m lo hi iphdr Ip.size)
          let net ← net.sockrecvudp m (ntohl iphdr.src) (ntohs udphdr.dport) (ntohs udphdr.sport)
          return { h with net := net }

def netRxIp (h : Host) (lo hi m : Nat) : Except Fault Host :=
  match h.net.mbufpull m Ip.size with
  | none => .ok (h.drop h.net m)
  | some (p, net) => do
      let bytes ← net.loadHdr m lo hi p Ip.size
      let iphdr := Ip.ofBytes bytes
      if iphdr.vhl ≠ IP_VHL then return h.drop net m
      else if inCksum bytes ≠ 0 then return h.drop net m
      else if htons iphdr.off ≠ 0 then return h.drop net m
      else if htonl iphdr.dst ≠ h.localIp then return h.drop net m
      else if iphdr.p ≠ IPPROTO_UDP then return h.drop net m
      else
        let len := ntohs iphdr.len - BitVec.ofNat 16 Ip.size
        netRxUdp { h with net := net } lo hi m len p

/-- Receive the frame in a packet buffer. -/
def netRx (h : Host) (m : Nat) : Except Fault Host :=
  let lo := (h.net.mbuf m).head
  let hi := lo + (h.net.mbuf m).len.toNat
  match h.net.mbufpull m Eth.size with
  | none => .ok (h.drop h.net m)
  | some (ethhdr, net) => do
      let ethhdr := Eth.ofBytes (← net.loadHdr m lo hi ethhdr Eth.size)
      let type := ntohs ethhdr.type
      if type = ETHTYPE_IP then netRxIp { h with net := net } lo hi m
      else if type = ETHTYPE_ARP then netRxArp { h with net := net } lo hi m
      else return h.drop net m

end Host

end Riscv2os.Xv7
