import Riscv2os.Xv7.NetRoundTrip
import Riscv2os.Xv7.SocketTable

/-!
# What becomes of a received packet buffer

In every run in which the socket table works, `net_rx` returns for every frame, and the packet
buffer is freed once or appended once to the queue of one socket, with the payload of the
datagram left in it. When the table has been left with a socket that is closed, a frame can
make `net_rx` wait for ever.
-/

namespace Riscv2os.Xv7

open Riscv2os.Std
open LinkedList (IsList IsQueue)

namespace Net

/-- The packet buffers `l` wait at the socket `so`. -/
def Waits (s : Net) (so : Nat) (l : List Nat) : Prop :=
  IsQueue (fun m => (s.mbuf m).next) 0 (s.sock so).rxq.head (s.sock so).rxq.tail l

/-- What is left in a packet buffer that is queued: the first `ulen - 8` bytes behind the UDP
header, all of them inside the frame. -/
def PayloadOf (frame data : List UInt8) : Prop :=
  let ulen := (ntohs (Udp.ofBytes ((frame.drop (Eth.size + Ip.size)).take Udp.size)).ulen).toNat
  Udp.size ≤ ulen ∧ Eth.size + Ip.size + ulen ≤ frame.length ∧
    data = (frame.drop (Eth.size + Ip.size + Udp.size)).take (ulen - Udp.size)

/-- The packet buffer `m` of a frame has been freed once, or appended once to one queue. -/
def Handled (s' : Net) (opened : List Nat) (queue : Nat → List Nat) (m : Nat) (frame : List UInt8) :
    Prop :=
  (s'.freelist.count m = 1 ∧ ∀ so ∈ opened, s'.Waits so (queue so)) ∨
  ∃ so ∈ opened, m ∉ s'.freelist ∧
    (∀ c ∈ opened, s'.Waits c (Function.update queue so (queue so ++ [m]) c)) ∧
    PayloadOf frame (s'.data m)

end Net

open Net

/-- The payload of a datagram that is delivered. -/
theorem received_udp {localIp raddr : BitVec 32} {lport rport : BitVec 16}
    {frame payload : List UInt8} (bounded : frame.length ≤ MBUF_SIZE)
    (udp : received localIp frame = .udp payload raddr lport rport) :
    PayloadOf frame payload := by
  unfold received at udp
  simp only at udp
  split at udp
  · cases udp
  · split at udp
    · unfold receivedIp at udp
      simp only at udp
      split at udp
      · cases udp
      · unfold receivedUdp at udp
        simp only [List.drop_drop] at udp
        split at udp
        · cases udp
        · next valid =>
          cases udp
          obtain ⟨long, ulen, fits⟩ : ¬ _ ∧ ¬ _ ∧ ¬ _ := by
            simpa only [not_or] using valid
          rw [not_not] at ulen
          rw [not_lt, List.length_drop] at fits long
          have small := (ntohs (Udp.ofBytes
            ((frame.drop (Eth.size + Ip.size)).take Udp.size)).ulen).isLt
          -- a length below eight wraps to more than a frame can hold
          rw [← ulen, BitVec.toNat_sub, BitVec.toNat_ofNat] at *
          simp only [PayloadOf]
          simp only [MBUF_SIZE, Eth.size, Ip.size, Udp.size] at *
          refine ⟨by omega, by omega, ?_⟩
          congr 1
          omega
    · split at udp
      · unfold receivedArp at udp
        simp only at udp
        split at udp
        · cases udp
        · cases udp
      · cases udp

namespace Net

variable {s : Net} {m pa so : Nat} {l : List Nat}

theorem Waits.congr {s' : Net} (waits : s.Waits so l) (sock : s'.sock so = s.sock so)
    (mbufs : ∀ m ∈ l, s'.mbuf m = s.mbuf m) : s'.Waits so l := by
  rw [Waits, sock]
  exact IsQueue.congr waits fun m inside => by rw [mbufs m inside]

/-- Only the packet buffer `m` is different. -/
def OnlyAt (s s' : Net) (m : Nat) : Prop := ∃ mbuf, s' = s.setMbuf m fun _ => mbuf

theorem OnlyAt.trans {s' s'' : Net} (one : s.OnlyAt s' m) (two : s'.OnlyAt s'' m) : s.OnlyAt s'' m := by
  obtain ⟨_, rfl⟩ := one
  obtain ⟨mbuf, rfl⟩ := two
  exact ⟨mbuf, setMbuf_setMbuf ..⟩

theorem mbufput_ok {k : Nat} (fits : (s.mbuf m).len.toNat + k ≤ MBUF_SIZE) :
    ∃ s', s.mbufput m k = .ok ((s.mbuf m).head + (s.mbuf m).len.toNat, s') ∧ s.OnlyAt s' m ∧
      (s'.mbuf m).head = (s.mbuf m).head := by
  have small : ¬ ((s.mbuf m).len + BitVec.ofNat 32 k).toNat > MBUF_SIZE := by
    simp only [MBUF_SIZE] at fits ⊢
    rw [BitVec.toNat_add, BitVec.toNat_ofNat]
    omega
  refine ⟨s.setMbuf m fun mbuf => { mbuf with len := mbuf.len + BitVec.ofNat 32 k }, ?_, ⟨_, rfl⟩, ?_⟩
  · rw [mbufput]
    simp only [setMbuf_self]
    rw [if_neg small]
  · rw [setMbuf_self]

theorem mbufpush_ok {k : Nat} (room : k ≤ (s.mbuf m).head) :
    ∃ s', s.mbufpush m k = .ok ((s.mbuf m).head - k, s') ∧ s.OnlyAt s' m ∧
      (s'.mbuf m).head = (s.mbuf m).head - k := by
  refine ⟨_, if_neg (not_lt.mpr room), ⟨_, rfl⟩, ?_⟩
  rw [setMbuf_self]

theorem storeHdr_ok (s : Net) (m : Nat) {p : Nat} {hdr : List UInt8} (inside : p + hdr.length ≤ MBUF_ROOM) :
    ∃ s', s.storeHdr m p hdr = .ok s' ∧ s.OnlyAt s' m ∧ (s'.mbuf m).head = (s.mbuf m).head := by
  refine ⟨_, if_pos inside, ⟨_, rfl⟩, ?_⟩
  rw [setMbuf_self]

/-- Nothing but the page `pa` is different, and the pages left in the free list are `rest`. -/
structure TakesPage (s s' : Net) (pa : Nat) (rest : List Nat) : Prop where
  freelist : s'.freelist = rest
  sock : ∀ so, so ≠ pa → s'.sock so = s.sock so
  mbuf : ∀ m, m ≠ pa → s'.mbuf m = s.mbuf m

theorem TakesPage.only {s' s'' : Net} {rest : List Nat} (takes : s.TakesPage s' pa rest)
    (only : s'.OnlyAt s'' pa) : s.TakesPage s'' pa rest := by
  obtain ⟨mbuf, rfl⟩ := only
  exact ⟨takes.freelist, takes.sock, fun m other =>
    (Function.update_of_ne other ..).trans (takes.mbuf m other)⟩

theorem mbufalloc_ok {rest : List Nat} {headroom : Nat} (small : headroom ≤ MBUF_SIZE)
    (page : s.freelist = pa :: rest) :
    ∃ s', s.mbufalloc headroom = some (pa, s') ∧ s.TakesPage s' pa rest ∧
      (s'.mbuf pa).head = headroom ∧ (s'.mbuf pa).len = 0 := by
  rw [mbufalloc, if_neg (not_lt.mpr small)]
  simp only [kalloc, page]
  refine ⟨_, rfl, ⟨rfl, fun so other => Function.update_of_ne other .., fun m other => ?_⟩, ?_, ?_⟩
  · exact (Function.update_of_ne other ..).trans (Function.update_of_ne other ..)
  · rw [setMbuf_self]
  · rw [setMbuf_self]

theorem kfree_sock (s : Net) {other : Nat} (apart : other ≠ pa) :
    (s.kfree pa).sock other = s.sock other := Function.update_of_ne apart ..

theorem kfree_mbuf (s : Net) {other : Nat} (apart : other ≠ pa) :
    (s.kfree pa).mbuf other = s.mbuf other := Function.update_of_ne apart ..

end Net

/-- Sending a packet buffer changes it, and frees it or the one sent before from the slot. -/
theorem Host.netTxEth_ok {h : Host} {m : Nat} (ethtype : BitVec 16)
    (room : Eth.size ≤ (h.net.mbuf m).head) (inside : (h.net.mbuf m).head ≤ MBUF_ROOM) :
    ∃ h' net, h.netTxEth m ethtype = .ok h' ∧ h.net.OnlyAt net m ∧
      (h'.net = net.kfree m ∨ h'.net = net ∨
        h.txMbufs h.tdt ≠ 0 ∧ h'.net = net.kfree (h.txMbufs h.tdt)) := by
  obtain ⟨pushed, pushes, only, head⟩ := mbufpush_ok room
  have fits : (h.net.mbuf m).head - Eth.size +
      (Eth.toBytes ⟨broadcastMac, localMac, htons ethtype⟩).length ≤ MBUF_ROOM := by
    rw [Eth.length_toBytes]
    omega
  obtain ⟨net, stores, only', _⟩ := storeHdr_ok pushed m fits
  rw [netTxEth, pushes]
  simp only [ok_bind, stores]
  by_cases full : (h.txRing h.tdt).status &&& E1000_RXD_STAT_DD = 0
  · simp only [e1000Transmit, full, if_true]
    exact ⟨_, net, rfl, only.trans only', .inl rfl⟩
  · simp only [e1000Transmit, full, if_false]
    refine ⟨_, net, rfl, only.trans only', .inr ?_⟩
    by_cases old : h.txMbufs h.tdt ≠ 0
    · exact .inr ⟨old, if_pos old⟩
    · exact .inl (if_neg old)

/-- The packet buffer `m` is not part of the socket layer, of the free list or of the next slot
of the transmit ring, and these have no page in common with the sockets and their queues. -/
structure Ready (h : Host) (opened : List Nat) (queue : Nat → List Nat) (m : Nat) : Prop where
  freelist_sock : ∀ pa ∈ h.net.freelist, pa ∉ opened
  freelist_queued : ∀ pa ∈ h.net.freelist, ∀ so ∈ opened, pa ∉ queue so
  slot_sock : h.txMbufs h.tdt ≠ 0 → h.txMbufs h.tdt ∉ opened
  slot_queued : h.txMbufs h.tdt ≠ 0 → ∀ so ∈ opened, h.txMbufs h.tdt ∉ queue so
  slot_other : h.txMbufs h.tdt ≠ 0 → h.txMbufs h.tdt ≠ m
  not_free : m ∉ h.net.freelist
  not_sock : m ∉ opened
  not_queued : ∀ so ∈ opened, m ∉ queue so

/-- An ARP reply is sent without touching the packet buffer `m`, the sockets or their queues. -/
theorem Ready.netTxArp {h : Host} {opened : List Nat} {queue : Nat → List Nat} {m : Nat}
    (ready : Ready h opened queue m) (op : BitVec 16) (dmac : Bytes ETHADDR_LEN) (dip : BitVec 32) :
    ∃ h', h.netTxArp op dmac dip = .ok h' ∧ m ∉ h'.net.freelist ∧
      ∀ so ∈ opened, h'.net.sock so = h.net.sock so ∧
        ∀ pa ∈ queue so, h'.net.mbuf pa = h.net.mbuf pa := by
  cases page : h.net.freelist with
  | nil =>
      refine ⟨h, ?_, ready.not_free, fun so _ => ⟨rfl, fun _ _ => rfl⟩⟩
      rw [Host.netTxArp, mbufalloc, kalloc, page]
      rfl
  | cons pa rest =>
      have inFree : pa ∈ h.net.freelist := by simp [page]
      obtain ⟨fresh, alloc, takes, head, len⟩ :=
        mbufalloc_ok (by decide : MBUF_DEFAULT_HEADROOM ≤ MBUF_SIZE) page
      obtain ⟨put, puts, only, head'⟩ :=
        mbufput_ok (s := fresh) (m := pa) (k := Arp.size) (by rw [len]; decide)
      have fits : (fresh.mbuf pa).head + (fresh.mbuf pa).len.toNat +
          (Arp.toBytes ⟨htons ARP_HRD_ETHER, htons ETHTYPE_IP, UInt8.ofNat ETHADDR_LEN, 4,
            htons op, localMac, htonl h.localIp, dmac, htonl dip⟩).length ≤ MBUF_ROOM := by
        rw [Arp.length_toBytes, head, len]
        decide
      obtain ⟨net, stores, only', head''⟩ := storeHdr_ok put pa fits
      have start : (net.mbuf pa).head = MBUF_DEFAULT_HEADROOM := by rw [head'', head', head]
      obtain ⟨h', sent, ran, only'', final⟩ := Host.netTxEth_ok (h := { h with net := net }) (m := pa)
        ETHTYPE_ARP (by rw [start]; decide) (by rw [start]; decide)
      have changed := ((takes.only only).only only').only only''
      refine ⟨h', ?_, ?_⟩
      · rw [Host.netTxArp]
        simp only [alloc]
        rw [puts]
        simp only [ok_bind, stores]
        exact ran
      · have notFresh : m ≠ pa := fun same => ready.not_free (same ▸ inFree)
        have notRest : m ∉ rest := fun inside => ready.not_free (by simp [page, inside])
        have apart : ∀ so ∈ opened, so ≠ pa := fun so member same =>
          ready.freelist_sock pa inFree (same ▸ member)
        have apart' : ∀ so ∈ opened, ∀ a ∈ queue so, a ≠ pa := fun so member a waiting same =>
          ready.freelist_queued pa inFree so member (same ▸ waiting)
        obtain final | final | ⟨old, final⟩ := final
        · rw [final]
          refine ⟨?_, fun so member => ⟨?_, fun a waiting => ?_⟩⟩
          · show m ∉ pa :: sent.freelist
            rw [changed.freelist]
            simp [notFresh, notRest]
          · rw [kfree_sock _ (apart so member), changed.sock so (apart so member)]
          · rw [kfree_mbuf _ (apart' so member a waiting), changed.mbuf a (apart' so member a waiting)]
        · rw [final]
          refine ⟨?_, fun so member => ⟨?_, fun a waiting => ?_⟩⟩
          · rw [changed.freelist]
            exact notRest
          · rw [changed.sock so (apart so member)]
          · rw [changed.mbuf a (apart' so member a waiting)]
        · have notSlot : ∀ so ∈ opened, so ≠ h.txMbufs h.tdt := fun so member same =>
            ready.slot_sock old (same ▸ member)
          have notSlot' : ∀ so ∈ opened, ∀ a ∈ queue so, a ≠ h.txMbufs h.tdt :=
            fun so member a waiting same => ready.slot_queued old so member (same ▸ waiting)
          rw [final]
          refine ⟨?_, fun so member => ⟨?_, fun a waiting => ?_⟩⟩
          · show m ∉ h.txMbufs h.tdt :: sent.freelist
            rw [changed.freelist]
            simp [(ready.slot_other old).symm, notRest]
          · rw [kfree_sock _ (notSlot so member), changed.sock so (apart so member)]
          · rw [kfree_mbuf _ (notSlot' so member a waiting), changed.mbuf a (apart' so member a waiting)]

/-- Freeing the packet buffer leaves the queues. -/
theorem freed {s net : Net} {opened : List Nat} {queue : Nat → List Nat} {m : Nat}
    {frame : List UInt8}
    (waits : ∀ so ∈ opened, s.Waits so (queue so)) (notFree : m ∉ net.freelist)
    (notSock : m ∉ opened) (notQueued : ∀ so ∈ opened, m ∉ queue so)
    (kept : ∀ so ∈ opened, net.sock so = s.sock so ∧ ∀ pa ∈ queue so, net.mbuf pa = s.mbuf pa) :
    Handled (net.kfree m) opened queue m frame := by
  refine .inl ⟨?_, fun so member => ?_⟩
  · show (m :: net.freelist).count m = 1
    rw [List.count_cons_self, List.count_eq_zero_of_not_mem notFree]
  · refine (waits so member).congr ?_ fun a waiting => ?_
    · rw [kfree_sock _ (ne_of_mem_of_not_mem member notSock), (kept so member).1]
    · rw [kfree_mbuf _ (ne_of_mem_of_not_mem waiting (notQueued so member)), (kept so member).2 a waiting]

namespace PagesUsed

variable {s : NetSys} {queue : Nat → List Nat} {use : Nat → PageUse} {m : Nat}

/-- What a page of the rest of the kernel is not. -/
theorem ofHeld (pages : PagesUsed s queue use) (owned : m ∈ s.held) :
    m ∉ s.net.freelist ∧ m ∉ s.opened ∧ ∀ so ∈ s.opened, m ∉ queue so := by
  have kind := (pages.held m).mp owned
  refine ⟨fun member => ?_, fun member => ?_, fun so member waiting => ?_⟩
  · rw [(pages.free m).mp member] at kind
    cases kind
  · rw [(pages.sock m).mp member] at kind
    cases kind
  · exact (pages.used waiting member).2.2 owned

theorem ofFreelist (pages : PagesUsed s queue use) (free : m ∈ s.net.freelist) :
    m ∉ s.opened ∧ ∀ so ∈ s.opened, m ∉ queue so := by
  have kind := (pages.free m).mp free
  refine ⟨fun member => ?_, fun so member waiting => ?_⟩
  · rw [(pages.sock m).mp member] at kind
    cases kind
  · exact (pages.used waiting member).2.1 free

end PagesUsed

/-- `mbufq_pushtail` leaves the data of the packet buffer. -/
theorem Net.data_mbufqPushtail (s : Net) (so m : Nat) : (s.mbufqPushtail so m).data m = s.data m := by
  have linked : ∀ (s : Net) (a next : Nat),
      (s.setMbuf a fun mbuf => { mbuf with next := next }).data m = s.data m := by
    intro s a next
    by_cases here : m = a
    · subst here
      simp [data]
    · simp [data, setMbuf, Function.update_of_ne here]
  unfold mbufqPushtail
  simp only
  split
  · exact linked ..
  · exact (linked ..).trans (linked ..)

/-- A datagram is queued at the open socket that it is for, or freed. -/
theorem delivered {s : NetSys} {queue : Nat → List Nat} {use : Nat → PageUse} {m k count : Nat}
    {raddr : BitVec 32} {lport rport : BitVec 16} (table : s.net.Table s.opened queue)
    (pages : PagesUsed s queue use) (owned : m ∈ s.held)
    (inside : k + count ≤ (s.net.data m).length)
    (payload : PayloadOf (s.net.data m) (((s.net.data m).drop k).take count)) :
    ∃ net, (s.net.clipped m k count).sockrecvudp m raddr lport rport = .ok net ∧
      Handled net s.opened queue m (s.net.data m) := by
  obtain ⟨notFree, notSock, notQueued⟩ := pages.ofHeld owned
  have table' : (s.net.clipped m k count).Table s.opened queue :=
    table.congr rfl (fun _ _ => rfl) fun so member a waiting =>
      Function.update_of_ne (ne_of_mem_of_not_mem waiting (notQueued so member)) ..
  have inv : NetInv { s with net := s.net.clipped m k count } :=
    ⟨queue, use, table', pages.freelist_nodup, pages.held_nodup, pages.free, pages.sock, pages.held,
      pages.queued, pages.managed⟩
  by_cases used : ∃ so ∈ s.opened, (s.net.clipped m k count).Uses so raddr lport rport
  · obtain ⟨so, member, uses⟩ := used
    refine ⟨_, inv.delivers_to member uses, .inr ⟨so, member, ?_, ?_, ?_⟩⟩
    · rw [(mbufqPushtail_kept ..).2.1]
      exact notFree
    · have apart : ∀ c ∈ s.opened, c ≠ so → ∀ a ∈ queue c, a ∉ queue so := by
        intro c inside other a waiting waiting'
        have one := pages.queued c inside a waiting
        rw [pages.queued so member a waiting'] at one
        cases one
        exact other rfl
      exact (table'.push member (inv.real owned) notQueued apart).waiting
    · rw [data_mbufqPushtail, data_clipped inside]
      exact payload
  · have unused : ∀ so ∈ s.opened, ¬ (s.net.clipped m k count).Uses so raddr lport rport :=
      fun so member uses => used ⟨so, member, uses⟩
    refine ⟨_, inv.delivers_none unused, ?_⟩
    exact freed table'.waiting notFree notSock notQueued fun so _ => ⟨rfl, fun _ _ => rfl⟩

/-- In every run in which the socket table works, every frame in a page of the kernel is handled.
`e1000_recv` does not accept a frame that is longer than the array of a packet buffer. -/
theorem netRx_handles {s : NetSys} (run : netSystem.ReachableUnder TableWorks s) {h : Host} {m : Nat}
    (same : h.net = s.net) (owned : m ∈ s.held)
    (slot : h.txMbufs h.tdt ≠ 0 → h.txMbufs h.tdt ∈ s.held ∧ h.txMbufs h.tdt ≠ m)
    (accepted : (h.net.mbuf m).len.toNat ≤ MBUF_SIZE) :
    ∃ queue h', (∀ so ∈ s.opened, s.net.Waits so (queue so) ∧ m ∉ queue so) ∧
      h.netRx m = .ok h' ∧ Handled h'.net s.opened queue m (s.net.data m) := by
  have inv := run.invariant NetInv.inductive_
  obtain ⟨queue, use, table, pages⟩ := id inv
  obtain ⟨notFree, notSock, notQueued⟩ := pages.ofHeld owned
  have waits : ∀ so ∈ s.opened, s.net.Waits so (queue so) := table.waiting
  refine ⟨queue, ?_⟩
  rw [Host.netRx_eq, same]
  rw [same] at accepted
  cases what : received h.localIp (s.net.data m) with
  | dropped =>
      refine ⟨_, fun so member => ⟨waits so member, notQueued so member⟩, rfl, ?_⟩
      exact freed waits (by rw [same]; exact notFree) notSock notQueued
        fun so _ => by rw [same]; exact ⟨rfl, fun _ _ => rfl⟩
  | arp sha sip =>
      have free : ∀ pa ∈ h.net.freelist, pa ∉ s.opened ∧ ∀ so ∈ s.opened, pa ∉ queue so := by
        rw [same]
        exact fun pa member => pages.ofFreelist member
      have ready : Ready { h with net := h.net.pulled m (Eth.size + Arp.size) } s.opened queue m :=
        { freelist_sock := fun pa member => (free pa member).1
          freelist_queued := fun pa member => (free pa member).2
          slot_sock := fun old => (pages.ofHeld (slot old).1).2.1
          slot_queued := fun old => (pages.ofHeld (slot old).1).2.2
          slot_other := fun old => (slot old).2
          not_free := by rw [same]; exact notFree
          not_sock := notSock
          not_queued := notQueued }
      obtain ⟨h', sent, notFree', kept⟩ := ready.netTxArp ARP_OP_REPLY sha sip
      refine ⟨h'.drop h'.net m, fun so member => ⟨waits so member, notQueued so member⟩, ?_, ?_⟩
      · rw [Host.handle, sent]
        rfl
      · refine freed waits notFree' notSock notQueued fun so member => ?_
        rw [(kept so member).1, same]
        refine ⟨rfl, fun pa waiting => ?_⟩
        rw [(kept so member).2 pa waiting, same]
        exact Function.update_of_ne (ne_of_mem_of_not_mem waiting (notQueued so member)) ..
  | udp payload raddr lport rport =>
      obtain ⟨least, fits, payloadIs⟩ := received_udp (by rw [length_data]; exact accepted) what
      have length := congrArg List.length payloadIs
      rw [List.length_take, List.length_drop] at length
      have inside : Eth.size + Ip.size + Udp.size + payload.length ≤ (s.net.data m).length := by
        omega
      have clipped : ((s.net.data m).drop (Eth.size + Ip.size + Udp.size)).take payload.length =
          payload := by
        conv_rhs => rw [payloadIs]
        congr 1
        omega
      obtain ⟨net, ran, handled⟩ := delivered table pages owned inside
        (by rw [clipped]; exact ⟨least, fits, payloadIs⟩)
      refine ⟨{ h with net := net }, fun so member => ⟨waits so member, notQueued so member⟩, ?_, handled⟩
      rw [Host.handle, same, ran]
      rfl

/-- A host on the network `net` with an idle transmit ring. -/
def idleHost (net : Net) (localIp : BitVec 32) : Host where
  net := net
  localIp := localIp
  tdt := ⟨0, TX_RING_SIZE_pos⟩
  txRing := fun _ => ⟨(0, 0), 0, 0, E1000_RXD_STAT_DD⟩
  txMbufs := fun _ => 0

/-- A frame from the port 257 of the host 1.1.1.1 to the port 257 of the host 10.0.2.15. -/
def strayFrame : List UInt8 :=
  Eth.toBytes ⟨broadcastMac, localMac, htons ETHTYPE_IP⟩ ++
    (((idleHost threePages.net 0x01010101).ipHeader IPPROTO_UDP 0x0a00020f 28).toBytes ++
      ((Host.udpHeader 257 257 8).toBytes ++ []))

/-- The page of a packet buffer with the bytes `frame`. -/
def frameMbuf (frame : List UInt8) : Mbuf :=
  ⟨0, 0, BitVec.ofNat 32 frame.length, Bytes.splice (fun _ => 0) 0 frame⟩

theorem length_strayFrame : strayFrame.length = 42 := by
  simp only [strayFrame, List.length_append, Eth.length_toBytes, Ip.length_toBytes,
    Udp.length_toBytes, List.length_nil]
  rfl

theorem Net.data_frameMbuf {s : Net} {m : Nat} {frame : List UInt8} (small : frame.length ≤ MBUF_ROOM)
    (holds : s.mbuf m = frameMbuf frame) : s.data m = frame := by
  have fits : frame.length % 2 ^ 32 = frame.length := by
    refine Nat.mod_eq_of_lt (lt_of_le_of_lt small ?_)
    simp only [MBUF_ROOM, PGSIZE]
    norm_num
  simp only [data, holds, frameMbuf, BitVec.toNat_ofNat, fits]
  exact Bytes.slice_splice_self _ (by omega)

theorem received_strayFrame : received 0x0a00020f strayFrame = .udp [] 0x01010101 257 257 :=
  (idleHost threePages.net 0x01010101).received_netTxUdp 0x0a00020f 257 257 []
    (ntohs_htons ETHTYPE_IP) (by decide)

theorem netRx_handles_strayFrame : ∃ (s : NetSys) (h : Host) (m : Nat), h.net = s.net ∧
    s.net.data m = strayFrame ∧ ∃ queue h', (∀ so ∈ s.opened, s.net.Waits so (queue so) ∧ m ∉ queue so) ∧
      h.netRx m = .ok h' ∧ Handled h'.net s.opened queue m (s.net.data m) := by
  obtain ⟨s, reached, held, mbuf⟩ : ∃ s, netSystem.ReachableUnder TableWorks s ∧
      KERNBASE ∈ s.held ∧ s.net.mbuf KERNBASE = frameMbuf strayFrame := by
    refine ⟨_, .step (.step (.initial threePages_initial) ?_ (NetStep.kalloc rfl)) ?_
      (@NetStep.store _ KERNBASE (.filled 0) (frameMbuf strayFrame) (by decide)), by decide, rfl⟩
    · trivial
    · trivial
  have data := s.net.data_frameMbuf (by rw [length_strayFrame]; decide) mbuf
  refine ⟨s, idleHost s.net 0x0a00020f, KERNBASE, rfl, data, ?_⟩
  refine netRx_handles reached rfl held (fun old => absurd rfl old) ?_
  show (s.net.mbuf KERNBASE).len.toNat ≤ MBUF_SIZE
  rw [← length_data, data, length_strayFrame]
  decide

/-- A socket is closed that is the first of two. Its page is junk then and still in the table,
and `net_rx` waits for the lock in it when a frame matches the junk. -/
theorem netRx_waits_headClosed : ∃ (s : NetSys) (h : Host) (m : Nat), netSystem.Reachable s ∧
    h.net = s.net ∧ m ∈ s.held ∧ (∀ i, h.txMbufs i = 0) ∧ s.net.data m = strayFrame ∧
    h.netRx m = .error .blocked := by
  obtain ⟨s, reached, held, mbuf, waits⟩ : ∃ s, netSystem.Reachable s ∧
      KERNBASE + 2 * PGSIZE ∈ s.held ∧ s.net.mbuf (KERNBASE + 2 * PGSIZE) = frameMbuf strayFrame ∧
      (s.net.clipped (KERNBASE + 2 * PGSIZE) (Eth.size + Ip.size + Udp.size) 0).sockrecvudp
        (KERNBASE + 2 * PGSIZE) 0x01010101 257 257 = .error .blocked :=
    ⟨_, .step (.step (.step (.step (.step (.initial threePages_initial)
      trivial (@NetStep.opens _ 1 1 1 _ _ rfl))
      trivial (@NetStep.opens _ 2 2 2 _ _ rfl))
      trivial (NetStep.kalloc rfl))
      trivial (@NetStep.store _ (KERNBASE + 2 * PGSIZE) (.filled 0) (frameMbuf strayFrame) (by decide)))
      trivial (@NetStep.sockclose _ (KERNBASE + PGSIZE) _ (by decide) rfl), by decide, rfl, rfl⟩
  have data := s.net.data_frameMbuf (by rw [length_strayFrame]; decide) mbuf
  refine ⟨s, idleHost s.net 0x0a00020f, _, reached, rfl, held, fun _ => rfl, data, ?_⟩
  rw [Host.netRx_eq]
  show Host.handle _ _ (received 0x0a00020f (s.net.data _)) = _
  rw [data, received_strayFrame, Host.handle]
  show (do
    let net ← (s.net.clipped _ _ 0).sockrecvudp _ _ _ _
    return { idleHost s.net 0x0a00020f with net := net }) = _
  rw [waits]
  rfl

end Riscv2os.Xv7
