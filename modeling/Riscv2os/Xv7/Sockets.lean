import Mathlib.Data.BitVec
import Riscv2os.Std.LinkedList
import Riscv2os.Xv7.Kernel

/-!
# Packet buffers and sockets

The packet buffers of `net.c` with their queues, and the socket table of `sysnet.c`. Both
live in pages that `kalloc` hands out, and a page is read as the structure that it was
last allocated for. Pointers are addresses; the head of a packet buffer is an offset in its
own array. The system calls run one after the other, so that of a spin lock only
matters whether it is found taken.
-/

namespace Riscv2os.Xv7

open Riscv2os.Std

/-- Pages of physical memory. -/
def NPAGES : Nat := (PHYSTOP - KERNBASE) / PGSIZE

/-- Locks that `initlock` can register. -/
def NLOCK : Nat := 1000

/-- The backing store of a packet buffer, in bytes. -/
abbrev MBUF_SIZE : Nat := 2048

/-- The bytes from the start of `buf` to the end of the page of a packet buffer. -/
abbrev MBUF_ROOM : Nat := PGSIZE - 20

/-- `struct mbuf` with the rest of its page, which belongs to it too: `mbufput` only keeps
`len` below `MBUF_SIZE`, so that data behind a headroom may go on behind the array. -/
structure Mbuf where
  next : Nat
  head : Nat
  len : BitVec 32
  buf : Bytes MBUF_ROOM

/-- `struct mbufq`. -/
structure Mbufq where
  head : Nat
  tail : Nat

/-- `struct sock`. -/
structure Sock where
  next : Nat
  raddr : BitVec 32
  lport : BitVec 16
  rport : BitVec 16
  locked : BitVec 32
  rxq : Mbufq

namespace Sock

/-- The comparison of `sockalloc`, `sockclose` and `sockrecvudp`. -/
def is (so : Sock) (raddr : BitVec 32) (lport rport : BitVec 16) : Bool :=
  so.raddr == raddr && so.lport == lport && so.rport == rport

/-- A page filled with `memset`, read as a socket. -/
def filled (byte : Nat) : Sock where
  next := 0x0101010101010101 * byte
  raddr := BitVec.ofNat 32 (0x01010101 * byte)
  lport := BitVec.ofNat 16 (0x0101 * byte)
  rport := BitVec.ofNat 16 (0x0101 * byte)
  locked := BitVec.ofNat 32 (0x01010101 * byte)
  rxq := ⟨0x0101010101010101 * byte, 0x0101010101010101 * byte⟩

end Sock

/-- A page filled with `memset`, read as a packet buffer. -/
def Mbuf.filled (byte : Nat) : Mbuf where
  next := 0x0101010101010101 * byte
  head := 0x0101010101010101 * byte
  len := BitVec.ofNat 32 (0x01010101 * byte)
  buf := fun _ => UInt8.ofNat byte

/-- The network part of the kernel: the free pages, the pages in use, the head of the
socket table, and the room in the tables of files and of locks. -/
structure Net where
  freelist : List Nat
  sock : Nat → Sock
  mbuf : Nat → Mbuf
  sockets : Nat
  freeFiles : Nat
  nlock : Nat

namespace Net

def setSock (s : Net) (so : Nat) (f : Sock → Sock) : Net :=
  { s with sock := Function.update s.sock so (f (s.sock so)) }

def setMbuf (s : Net) (m : Nat) (f : Mbuf → Mbuf) : Net :=
  { s with mbuf := Function.update s.mbuf m (f (s.mbuf m)) }

/-- Allocate a page and fill it with junk. -/
def kalloc (s : Net) : Option (Nat × Net) :=
  match s.freelist with
  | [] => none
  | pa :: rest => some (pa,
      ({ s with freelist := rest }.setSock pa fun _ => .filled 5).setMbuf pa fun _ => .filled 5)

/-- Free a page and fill it with junk. The first word of it is then `r->next`. -/
def kfree (s : Net) (pa : Nat) : Net :=
  let next := s.freelist.headD 0
  ({ s with freelist := pa :: s.freelist }.setSock pa fun _ => { Sock.filled 1 with next := next }).setMbuf
    pa fun _ => { Mbuf.filled 1 with next := next }

/-- `initlock` of a new lock. -/
def initlock (s : Net) : Except Fault Net :=
  if s.nlock ≥ NLOCK then .error (.panic "initlock") else .ok { s with nlock := s.nlock + 1 }

/-- `acquire(&so->lock)`. A lock that is found taken stays so. -/
def acquire (s : Net) (so : Nat) : Except Fault Unit :=
  if (s.sock so).locked ≠ 0 then .error .blocked else .ok ()

/-- Search the socket table. -/
def findSock (s : Net) (raddr : BitVec 32) (lport rport : BitVec 16) : Except Fault (Option Nat) :=
  match LinkedList.findFrom (fun so => (s.sock so).next) 0
      (fun so => (s.sock so).is raddr lport rport) (NPAGES + 1) s.sockets with
  | none => .error .endless
  | some found => .ok found

/-- The part of `sockclose` with the socket table. -/
def unlinkSock (s : Net) (so : Nat) : Except Fault Net :=
  let sop := s.sockets
  if sop = 0 then .error .nullPointer
  else
    let s := if (s.sock sop).next = 0 then { s with sockets := 0 } else s
    let closing := s.sock so
    match LinkedList.findBefore (fun so => (s.sock so).next) 0
        (fun so => (s.sock so).is closing.raddr closing.lport closing.rport) (NPAGES + 1) sop with
    | none => .error .endless
    | some none => .ok s
    | some (some sop) => .ok (s.setSock sop fun sock => { sock with next := closing.next })

def sockclose (s : Net) (so : Nat) : Except Fault Net := do
  s.acquire so
  let s ← s.unlinkSock so
  return s.kfree so

/-- The result is the socket of the new file, or `none` for -1. -/
def sockalloc (s : Net) (raddr : BitVec 32) (lport rport : BitVec 16) :
    Except Fault (Option Nat × Net) :=
  -- `filealloc`; a failure later on closes the file again
  if s.freeFiles = 0 then .ok (none, s)
  else
    match s.kalloc with
    | none => .ok (none, s)
    | some (si, s) => do
        let s ← s.initlock
        let s := { s with freeFiles := s.freeFiles - 1 }.setSock si fun sock =>
          { sock with
            raddr := raddr
            lport := lport
            rport := rport
            locked := 0
            rxq := { sock.rxq with head := 0 } }
        match ← s.findSock raddr lport rport with
        | some _ =>
            -- `fileclose` of a file with one reference, which has the type `FD_SOCK` by now
            let s := { s.kfree si with freeFiles := s.freeFiles + 1 }
            let s ← s.sockclose si
            return (none, s)
        | none =>
            let s := s.setSock si fun sock => { sock with next := s.sockets }
            return (some si, { s with sockets := si })

/-- Push a packet buffer to the end of the queue of a socket. -/
def mbufqPushtail (s : Net) (so m : Nat) : Net :=
  let s := s.setMbuf m fun mbuf => { mbuf with next := 0 }
  if (s.sock so).rxq.head = 0 then s.setSock so fun sock => { sock with rxq := ⟨m, m⟩ }
  else
    let s := s.setMbuf (s.sock so).rxq.tail fun mbuf => { mbuf with next := m }
    s.setSock so fun sock => { sock with rxq := { sock.rxq with tail := m } }

/-- Pop a packet buffer from the start of the queue of a socket. -/
def mbufqPophead (s : Net) (so : Nat) : Option (Nat × Net) :=
  let head := (s.sock so).rxq.head
  if head = 0 then none
  else some (head, s.setSock so fun sock =>
    { sock with rxq := { sock.rxq with head := (s.mbuf head).next } })

/-- Deliver a packet to the socket it is for, and free it if there is none. -/
def sockrecvudp (s : Net) (m : Nat) (raddr : BitVec 32) (lport rport : BitVec 16) :
    Except Fault Net := do
  match ← s.findSock raddr lport rport with
  | none => return s.kfree m
  | some so => do
      s.acquire so
      return s.mbufqPushtail so m

/-- `sockread` of a packet that is there: the packet buffer is freed. -/
def sockread (s : Net) (so : Nat) : Except Fault Net := do
  s.acquire so
  match s.mbufqPophead so with
  | none => .error .blocked
  | some (m, s) => return s.kfree m

end Net

end Riscv2os.Xv7
