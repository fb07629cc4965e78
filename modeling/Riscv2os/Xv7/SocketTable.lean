import Riscv2os.Std.Loops
import Riscv2os.Std.TransitionSystem
import Riscv2os.Xv7.MbufQueue

/-!
# The socket table over runs

A transition system of `sockalloc`, `sockclose`, `sockread`, arriving packets and the rest
of the kernel, which allocates and frees pages of its own. As long as `sockclose` is not
called for the first of several sockets, and `sockalloc` not for a triple that is in use,
the table lists the open sockets.
-/

namespace Riscv2os.Xv7

open Riscv2os.Std
open LinkedList (IsList IsQueue)

/-- The network with the sockets opened and not yet closed, the last one first, and the
pages that the rest of the kernel holds. -/
structure NetSys where
  net : Net
  opened : List Nat
  held : List Nat

inductive NetAct where
  | sockalloc (raddr : BitVec 32) (lport rport : BitVec 16)
  | sockclose (so : Nat)
  | sockread (so : Nat)
  | receive (m : Nat) (raddr : BitVec 32) (lport rport : BitVec 16)
  | kalloc
  | kfree (pa : Nat)
  | store (pa : Nat) (sock : Sock) (mbuf : Mbuf)

/-- Callers close and read sockets that are open, and use pages that they hold. -/
inductive NetStep : NetSys → NetAct → NetSys → Prop where
  | opens {s raddr lport rport so net}
      (ran : s.net.sockalloc raddr lport rport = .ok (some so, net)) :
      NetStep s (.sockalloc raddr lport rport) { s with net := net, opened := so :: s.opened }
  | rejects {s raddr lport rport net} (ran : s.net.sockalloc raddr lport rport = .ok (none, net)) :
      NetStep s (.sockalloc raddr lport rport) { s with net := net }
  | sockclose {s so net} (member : so ∈ s.opened) (ran : s.net.sockclose so = .ok net) :
      NetStep s (.sockclose so)
        { s with
          net := { net with freeFiles := net.freeFiles + 1 }
          opened := s.opened.erase so }
  | sockread {s so net} (member : so ∈ s.opened) (ran : s.net.sockread so = .ok net) :
      NetStep s (.sockread so) { s with net := net }
  | receive {s m raddr lport rport net} (member : m ∈ s.held)
      (ran : s.net.sockrecvudp m raddr lport rport = .ok net) :
      NetStep s (.receive m raddr lport rport) { s with net := net, held := s.held.erase m }
  | kalloc {s pa net} (got : s.net.kalloc = some (pa, net)) :
      NetStep s .kalloc { s with net := net, held := pa :: s.held }
  | kfree {s pa} (member : pa ∈ s.held) :
      NetStep s (.kfree pa) { s with net := s.net.kfree pa, held := s.held.erase pa }
  | store {s pa sock mbuf} (member : pa ∈ s.held) :
      NetStep s (.store pa sock mbuf)
        { s with net := (s.net.setSock pa fun _ => sock).setMbuf pa fun _ => mbuf }

/-- From the boot on: no sockets, and a list of free pages of physical memory. -/
def netSystem : TransitionSystem NetSys NetAct where
  Initial s := s.net.sockets = 0 ∧ s.opened = [] ∧ s.held = [] ∧ s.net.freelist.Nodup ∧
    ∀ pa ∈ s.net.freelist, KERNBASE ≤ pa ∧ pa < PHYSTOP ∧ PGSIZE ∣ pa
  Step := NetStep

/-- Whether the socket `so` has the triple of the arguments. -/
def Net.Uses (s : Net) (so : Nat) (raddr : BitVec 32) (lport rport : BitVec 16) : Prop :=
  (s.sock so).is raddr lport rport = true

/-- The table is not asked for what it cannot do: closing the first of several sockets, and
opening a triple that is in use, or one when the table of locks is full, with a file and a page for it. No lock
leaves that table when a socket is closed. -/
def TableWorks (s : NetSys) : NetAct → Prop
  | .sockclose so => s.net.sockets = so → (s.net.sock so).next = 0
  | .sockalloc raddr lport rport => s.net.freeFiles = 0 ∨ s.net.freelist = [] ∨
      s.net.nlock < NLOCK ∧ ∀ so ∈ s.opened, ¬ s.net.Uses so raddr lport rport
  | _ => True

namespace Sock

variable {so so' : Sock} {raddr : BitVec 32} {lport rport : BitVec 16}

theorem is_iff : so.is raddr lport rport = true ↔
    so.raddr = raddr ∧ so.lport = lport ∧ so.rport = rport := by
  simp [is, and_assoc]

@[simp] theorem is_self : so.is so.raddr so.lport so.rport = true := is_iff.mpr ⟨rfl, rfl, rfl⟩

end Sock

namespace Net

variable {s s' : Net} {so si m pa : Nat} {opened : List Nat} {queue : Nat → List Nat}
  {raddr : BitVec 32} {lport rport : BitVec 16}

/-- The table lists the sockets `opened`, whose triples differ, and the packet buffers
`queue so` wait at each. -/
structure Table (s : Net) (opened : List Nat) (queue : Nat → List Nat) : Prop where
  list : IsList (fun so => (s.sock so).next) 0 s.sockets opened
  distinct : ∀ so ∈ opened, ∀ so' ∈ opened,
    s.Uses so (s.sock so').raddr (s.sock so').lport (s.sock so').rport → so = so'
  unlocked : ∀ so ∈ opened, (s.sock so).locked = 0
  waiting : ∀ so ∈ opened,
    IsQueue (fun m => (s.mbuf m).next) 0 (s.sock so).rxq.head (s.sock so).rxq.tail (queue so)

namespace Table

/-- Only the sockets and the waiting packet buffers matter. -/
theorem congr (table : s.Table opened queue) (sockets : s'.sockets = s.sockets)
    (socks : ∀ so ∈ opened, s'.sock so = s.sock so)
    (mbufs : ∀ so ∈ opened, ∀ m ∈ queue so, s'.mbuf m = s.mbuf m) : s'.Table opened queue where
  list := by
    rw [sockets]
    exact table.list.congr fun so member => by rw [socks so member]
  distinct so member so' member' := by
    rw [Uses, socks so member, socks so' member']
    exact table.distinct so member so' member'
  unlocked so member := by rw [socks so member, table.unlocked so member]
  waiting so member := by
    rw [socks so member]
    exact (table.waiting so member).congr fun m inside => by rw [mbufs so member m inside]

theorem nodup (table : s.Table opened queue) : opened.Nodup := table.list.nodup

theorem real (table : s.Table opened queue) (member : so ∈ opened) : so ≠ 0 := by
  rintro rfl
  exact table.list.2 member

/-- The search of the C code finds the open socket with a triple. -/
theorem findSock (table : s.Table opened queue) (few : opened.length ≤ NPAGES) (raddr : BitVec 32)
    (lport rport : BitVec 16) :
    s.findSock raddr lport rport =
      .ok (opened.find? fun so => (s.sock so).is raddr lport rport) := by
  rw [Net.findSock, LinkedList.findFrom_eq table.list (by omega)]

/-- Every field but `next` is kept by a change of the list. -/
theorem relink (table : s.Table opened queue) {opened' : List Nat}
    (list : IsList (fun so => (s'.sock so).next) 0 s'.sockets opened') (fewer : opened' ⊆ opened)
    (socks : ∀ so ∈ opened', ∃ next, s'.sock so = { s.sock so with next := next })
    (mbufs : s'.mbuf = s.mbuf) : s'.Table opened' queue where
  list := list
  distinct so member so' member' := by
    obtain ⟨_, same⟩ := socks so member
    obtain ⟨_, same'⟩ := socks so' member'
    rw [Uses, same, same']
    exact table.distinct so (fewer member) so' (fewer member')
  unlocked so member := by
    obtain ⟨_, same⟩ := socks so member
    rw [same]
    exact table.unlocked so (fewer member)
  waiting so member := by
    obtain ⟨_, same⟩ := socks so member
    rw [same, mbufs]
    exact table.waiting so (fewer member)

/-- A new socket with a triple that is not in use is put in front. -/
theorem opens (table : s.Table opened queue) (real : si ≠ 0) (fresh : si ∉ opened)
    (unused : ∀ so ∈ opened, ¬ s.Uses so (s'.sock si).raddr (s'.sock si).lport (s'.sock si).rport)
    (sockets : s'.sockets = si) (link : (s'.sock si).next = s.sockets)
    (others : ∀ so ∈ opened, s'.sock so = s.sock so) (mbufs : s'.mbuf = s.mbuf)
    (unlocked : (s'.sock si).locked = 0) (empty : (s'.sock si).rxq.head = 0) :
    s'.Table (si :: opened) (Function.update queue si []) where
  list := by
    rw [sockets]
    refine IsList.cons real ?_
    rw [link]
    exact table.list.congr fun so member => by rw [others so member]
  distinct so member so' member' uses := by
    simp only [Uses, List.mem_cons] at member member' uses
    obtain rfl | member := member <;> obtain rfl | member' := member'
    · rfl
    · rw [others so' member'] at uses
      refine absurd ?_ (unused so' member')
      obtain ⟨raddr, lport, rport⟩ := Sock.is_iff.mp uses
      exact Sock.is_iff.mpr ⟨raddr.symm, lport.symm, rport.symm⟩
    · rw [others so member] at uses
      exact absurd uses (unused so member)
    · rw [others so member, others so' member'] at uses
      exact table.distinct so member so' member' uses
  unlocked so member := by
    obtain rfl | member := List.mem_cons.mp member
    · exact unlocked
    · rw [others so member, table.unlocked so member]
  waiting so member := by
    obtain rfl | member := List.mem_cons.mp member
    · rw [Function.update_self, empty]
      exact .empty
    · have apart : so ≠ si := fun same => fresh (same ▸ member)
      rw [others so member, mbufs, Function.update_of_ne apart]
      exact table.waiting so member

/-- `sockclose` takes a socket off the table unless it is the first of several. -/
theorem unlinkSock (table : s.Table opened queue) (few : opened.length ≤ NPAGES)
    (member : so ∈ opened) (works : s.sockets = so → (s.sock so).next = 0) :
    ∃ sockets sock, s.unlinkSock so = .ok { s with sockets := sockets, sock := sock } ∧
      { s with sockets := sockets, sock := sock }.Table (opened.erase so) queue ∧
      ∀ other, other ∉ opened → sock other = s.sock other := by
  obtain ⟨x, y, rfl⟩ := List.append_of_mem member
  have distinct := table.nodup
  cases x using List.reverseRecOn with
  | nil =>
      -- the first socket is the only one
      obtain ⟨first, real, rest⟩ := table.list.of_cons
      have last : (s.sock so).next = 0 := works first
      obtain rfl : y = [] := by
        rw [last] at rest
        exact rest.eq_nil
      refine ⟨0, s.sock, ?_, ?_, fun _ _ => rfl⟩
      · rw [Net.unlinkSock, first]
        simp only [real, last, if_true, if_false]
        rw [LinkedList.findBefore_none (l := []) ?_ (by simp) (by simp)]
        rw [← first] at last ⊢
        exact first ▸ table.list
      · rw [List.nil_append, List.erase_cons_head]
        exact table.relink .nil (List.nil_subset _) (by simp) rfl
  | append_singleton x sop _ =>
      rw [List.append_assoc, List.singleton_append] at *
      have notFirst : s.sockets ≠ 0 := fun zero => by
        have := table.list
        rw [zero] at this
        simpa using this.eq_nil
      have more : (s.sock s.sockets).next ≠ 0 := by
        intro last
        have list := table.list
        cases x with
        | nil =>
            obtain ⟨first, _, rest⟩ := list.of_cons
            rw [← first, last] at rest
            exact absurd rest.eq_nil (by simp)
        | cons c x =>
            obtain ⟨first, _, rest⟩ := list.of_cons
            rw [← first, last] at rest
            exact absurd rest.eq_nil (by simp)
      have misses : ∀ c ∈ x ++ [sop], (s.sock c).is (s.sock so).raddr (s.sock so).lport
          (s.sock so).rport = false := by
        intro c before
        by_contra hit
        have same : c = so := table.distinct c (by simp at before ⊢; tauto) so (by simp)
          (by simpa [Uses] using hit)
        subst same
        simp only [List.nodup_append, List.nodup_cons, List.mem_append, List.mem_cons] at distinct before
        obtain before | rfl | absurd_ := before
        · exact distinct.2.2 c before c (by simp) rfl
        · exact distinct.2.1.1 (by simp)
        · cases absurd_
      refine ⟨s.sockets, (s.setSock sop fun sock => { sock with next := (s.sock so).next }).sock,
        ?_, ?_, ?_⟩
      · rw [Net.unlinkSock]
        simp only [notFirst, more, if_false]
        rw [LinkedList.findBefore_some table.list (by omega) Sock.is_self misses]
        rfl
      · have erased : (x ++ sop :: so :: y).erase so = x ++ sop :: y := by
          have : so ∉ x ++ [sop] := fun before => by
            have := misses so before
            simp at this
          rw [← List.singleton_append, ← List.append_assoc, List.erase_append_right _ this]
          simp
        rw [erased]
        refine table.relink ?_ ?_ ?_ rfl
        · have list := table.list.unlink
          refine list.congr fun c _ => ?_
          by_cases here : c = sop
          · subst here
            simp
          · rw [setSock_of_ne s _ here, Function.update_of_ne here]
        · intro c inside
          simp only [List.mem_append, List.mem_cons] at inside ⊢
          tauto
        · intro c _
          by_cases here : c = sop
          · subst here
            exact ⟨(s.sock so).next, setSock_self s c fun sock => { sock with next := (s.sock so).next }⟩
          · exact ⟨(s.sock c).next,
              setSock_of_ne s (fun sock => { sock with next := (s.sock so).next }) here⟩
      · intro c outside
        refine setSock_of_ne s _ fun same => outside ?_
        simp [same]

/-- The queue of one socket changes. -/
theorem requeue (table : s.Table opened queue) {waiting : List Nat} (sockets : s'.sockets = s.sockets)
    (socks : ∀ c ∈ opened, ∃ rxq, s'.sock c = { s.sock c with rxq := rxq })
    (others : ∀ c ∈ opened, c ≠ so → s'.sock c = s.sock c ∧
      ∀ m ∈ queue c, (s'.mbuf m).next = (s.mbuf m).next)
    (new : IsQueue (fun m => (s'.mbuf m).next) 0 (s'.sock so).rxq.head (s'.sock so).rxq.tail waiting) :
    s'.Table opened (Function.update queue so waiting) where
  list := by
    rw [sockets]
    refine table.list.congr fun c member => ?_
    obtain ⟨_, same⟩ := socks c member
    rw [same]
  distinct c member c' member' := by
    obtain ⟨_, same⟩ := socks c member
    obtain ⟨_, same'⟩ := socks c' member'
    rw [Uses, same, same']
    exact table.distinct c member c' member'
  unlocked c member := by
    obtain ⟨_, same⟩ := socks c member
    rw [same]
    exact table.unlocked c member
  waiting c member := by
    by_cases here : c = so
    · subst here
      rw [Function.update_self]
      exact new
    · rw [(others c member here).1, Function.update_of_ne here]
      exact (table.waiting c member).congr fun m inside => (others c member here).2 m inside

/-- `mbufq_pushtail` of a packet buffer that waits nowhere. -/
theorem push (table : s.Table opened queue) (member : so ∈ opened) (real : m ≠ 0)
    (fresh : ∀ c ∈ opened, m ∉ queue c)
    (apart : ∀ c ∈ opened, c ≠ so → ∀ a ∈ queue c, a ∉ queue so) :
    (s.mbufqPushtail so m).Table opened (Function.update queue so (queue so ++ [m])) := by
  have waits := table.waiting so member
  have keeps : ∀ c ∈ opened, c ≠ so → ∀ a ∈ queue c, a ≠ m := fun c inside _ a waiting same =>
    fresh c inside (same ▸ waiting)
  refine table.requeue (mbufqPushtail_kept s so m).1 ?_ ?_ ?_
  · intro c _
    rw [mbufqPushtail_sock]
    by_cases here : c = so
    · subst here
      exact ⟨_, Function.update_self ..⟩
    · exact ⟨_, Function.update_of_ne here ..⟩
  · intro c inside other
    rw [mbufqPushtail_sock]
    refine ⟨Function.update_of_ne other .., fun a waiting => ?_⟩
    have notLast : queue so ≠ [] → a ≠ (s.sock so).rxq.tail := by
      rintro more rfl
      obtain ⟨last, isLast⟩ := List.getLast?_isSome.mpr more |> Option.isSome_iff_exists.mp
      refine apart c inside other _ waiting ?_
      rw [waits.last last isLast]
      exact List.mem_of_getLast? isLast
    refine (congrFun (mbufqPushtail_next s so m) a).trans ?_
    split
    · rw [Function.update_of_ne (keeps c inside other a waiting)]
    · next full =>
      rw [Function.update_of_ne (notLast fun empty => full (waits.head_eq_null.mpr empty)),
        Function.update_of_ne (keeps c inside other a waiting)]
  · exact Queued.push waits real (fresh so member)

/-- `mbufq_pophead` takes the packet buffer that waits longest. -/
theorem pop (table : s.Table opened queue) (member : so ∈ opened) (got : s.mbufqPophead so = some (m, s')) :
    ∃ rest, queue so = m :: rest ∧ s'.Table opened (Function.update queue so rest) ∧
      ∃ sock, s' = { s with sock := sock } ∧ ∀ other, other ≠ so → sock other = s.sock other := by
  have waits := table.waiting so member
  unfold mbufqPophead at got
  simp only at got
  split at got
  · cases got
  · next full =>
    cases got
    cases found : queue so with
    | nil => exact absurd (waits.head_eq_null.mpr found) full
    | cons a rest =>
        rw [found] at waits
        obtain ⟨first, after⟩ := waits.pop
        refine ⟨rest, by rw [first], ?_, _, rfl, fun other apart => Function.update_of_ne apart ..⟩
        refine table.requeue rfl ?_ ?_ ?_
        · intro c _
          by_cases here : c = so
          · subst here
            exact ⟨_, setSock_self ..⟩
          · exact ⟨_, setSock_of_ne s _ here⟩
        · intro c _ other
          exact ⟨setSock_of_ne s _ other, fun _ _ => rfl⟩
        · rw [setSock_self, first]
          exact after

end Table

/-- Junk in a page that is neither a socket nor waiting. -/
theorem Table.junk {freelist : List Nat} {sock : Sock} {mbuf : Mbuf}
    (table : s.Table opened queue) (notSock : pa ∉ opened)
    (notQueued : ∀ so ∈ opened, pa ∉ queue so) :
    (({ s with freelist := freelist }.setSock pa fun _ => sock).setMbuf pa fun _ => mbuf).Table
      opened queue := by
  refine table.congr rfl ?_ ?_
  · intro so member
    exact Function.update_of_ne (ne_of_mem_of_not_mem member notSock) ..
  · intro so member m waiting
    exact Function.update_of_ne (ne_of_mem_of_not_mem waiting (notQueued so member)) ..

/-- The new socket before it is linked. -/
def newSock (raddr : BitVec 32) (lport rport : BitVec 16) : Sock :=
  { Sock.filled 5 with
    raddr := raddr
    lport := lport
    rport := rport
    locked := 0
    rxq := { (Sock.filled 5).rxq with head := 0 } }

/-- The network when `sockalloc` starts its search: the new socket is not linked yet. -/
def searching (s : Net) (si : Nat) (rest : List Nat) (raddr : BitVec 32) (lport rport : BitVec 16) :
    Net :=
  { s with
    freelist := rest
    sock := Function.update s.sock si (newSock raddr lport rport)
    mbuf := Function.update s.mbuf si (.filled 5)
    freeFiles := s.freeFiles - 1
    nlock := s.nlock + 1 }

/-- The network after `sockalloc` has put the socket in front of the list. -/
def linked (s : Net) (si : Nat) : Net :=
  { s.setSock si fun sock => { sock with next := s.sockets } with sockets := si }

theorem linked_sock_self (s : Net) (si : Nat) :
    (s.linked si).sock si = { s.sock si with next := s.sockets } :=
  setSock_self s si fun sock => { sock with next := s.sockets }

theorem linked_sock (apart : so ≠ si) : (s.linked si).sock so = s.sock so :=
  setSock_of_ne s (fun sock => { sock with next := s.sockets }) apart

theorem searching_sock_self {rest : List Nat} :
    (s.searching si rest raddr lport rport).sock si = newSock raddr lport rport :=
  Function.update_self ..

theorem searching_sock {rest : List Nat} (apart : so ≠ si) :
    (s.searching si rest raddr lport rport).sock so = s.sock so := Function.update_of_ne apart ..

theorem Table.searching (table : s.Table opened queue) (rest : List Nat) (raddr : BitVec 32)
    (lport rport : BitVec 16) (notSock : si ∉ opened) (notQueued : ∀ so ∈ opened, si ∉ queue so) :
    (s.searching si rest raddr lport rport).Table opened queue := by
  refine table.congr rfl (fun so member => ?_) fun so member m waiting => ?_
  · exact searching_sock (ne_of_mem_of_not_mem member notSock)
  · exact Function.update_of_ne (ne_of_mem_of_not_mem waiting (notQueued so member)) ..

/-- `sockalloc` with a file, a page and room for a lock. -/
theorem sockalloc_searches {rest : List Nat} (file : 0 < s.freeFiles) (page : s.freelist = si :: rest)
    (lock : s.nlock < NLOCK) {found : Option Nat}
    (search : (s.searching si rest raddr lport rport).findSock raddr lport rport = .ok found) :
    s.sockalloc raddr lport rport =
      match found with
      | some _ => do
          let s := s.searching si rest raddr lport rport
          let s ← { s.kfree si with freeFiles := s.freeFiles + 1 }.sockclose si
          return (none, s)
      | none => .ok (some si, (s.searching si rest raddr lport rport).linked si) := by
  have hasFile : ¬ s.freeFiles = 0 := by omega
  have hasLock : ¬ s.nlock ≥ NLOCK := by omega
  obtain ⟨start, alloc, locked, started⟩ : ∃ start, s.kalloc = some (si, start) ∧
      start.initlock = .ok { start with nlock := start.nlock + 1 } ∧
      ({ start with freeFiles := start.freeFiles - 1, nlock := start.nlock + 1 }.setSock si fun sock =>
        { sock with
          raddr := raddr
          lport := lport
          rport := rport
          locked := 0
          rxq := { sock.rxq with head := 0 } }) = s.searching si rest raddr lport rport := by
    refine ⟨({ s with freelist := rest }.setSock si fun _ => .filled 5).setMbuf si fun _ => .filled 5,
      by simp only [kalloc, page], ?_, ?_⟩
    · rw [initlock]
      exact if_neg hasLock
    · simp only [setSock, setMbuf, searching, newSock, Function.update_self, Function.update_idem]
  simp only [sockalloc, hasFile, if_false, alloc, locked, bind, Except.bind, started, search]
  cases found <;> rfl

/-- `sockalloc` returns without a search, or has a file, a page and a lock. -/
theorem sockalloc_cases {result : Option Nat × Net} (ran : s.sockalloc raddr lport rport = .ok result) :
    (s.freeFiles = 0 ∨ s.freelist = []) ∧ result = (none, s) ∨
      0 < s.freeFiles ∧ (∃ si rest, s.freelist = si :: rest) ∧ s.nlock < NLOCK := by
  unfold sockalloc at ran
  split at ran
  · next noFile =>
    cases ran
    exact .inl ⟨.inl noFile, rfl⟩
  · next file =>
    unfold kalloc at ran
    cases page : s.freelist with
    | nil =>
        simp only [page] at ran
        cases ran
        exact .inl ⟨.inr rfl, rfl⟩
    | cons si rest =>
        simp only [page, bind_ok] at ran
        obtain ⟨_, locked, _⟩ := ran
        unfold initlock at locked
        split at locked
        · cases locked
        · next room => exact .inr ⟨by omega, ⟨si, rest, rfl⟩, not_le.mp room⟩

/-- `sockalloc` without a file or a page. -/
theorem sockalloc_fails (none : s.freeFiles = 0 ∨ s.freelist = []) :
    s.sockalloc raddr lport rport = .ok (.none, s) := by
  unfold sockalloc
  split
  · rfl
  · next file =>
    rw [kalloc, none.resolve_left file]

/-- `sockalloc` with a file and a page, but a full table of locks. -/
theorem sockalloc_panics {rest : List Nat} (file : 0 < s.freeFiles) (page : s.freelist = si :: rest)
    (full : NLOCK ≤ s.nlock) : s.sockalloc raddr lport rport = .error (.panic "initlock") := by
  have hasFile : ¬ s.freeFiles = 0 := by omega
  simp only [sockalloc, hasFile, if_false, kalloc, page, initlock, setSock, setMbuf, ge_iff_le, full, if_true]
  rfl

/-- `sockalloc` of a triple in use never returns: it closes the socket in a page that it has
freed, whose lock is junk. -/
theorem Table.sockalloc_blocked {rest : List Nat} (table : s.Table opened queue)
    (few : opened.length ≤ NPAGES) (file : 0 < s.freeFiles) (page : s.freelist = si :: rest)
    (lock : s.nlock < NLOCK) (notSock : si ∉ opened) (notQueued : ∀ so ∈ opened, si ∉ queue so)
    (member : so ∈ opened) (uses : s.Uses so raddr lport rport) :
    s.sockalloc raddr lport rport = .error .blocked := by
  have search := (table.searching rest raddr lport rport notSock notQueued).findSock few
    raddr lport rport
  have hit : (opened.find? fun so =>
      ((s.searching si rest raddr lport rport).sock so).is raddr lport rport).isSome = true := by
    rw [List.find?_isSome]
    refine ⟨so, member, ?_⟩
    rw [searching_sock (ne_of_mem_of_not_mem member notSock)]
    exact uses
  obtain ⟨found, isFound⟩ := Option.isSome_iff_exists.mp hit
  rw [sockalloc_searches file page lock (search.trans (congrArg _ isFound))]
  have taken : ∀ s : Net, (s.kfree si).sock si = { Sock.filled 1 with next := s.freelist.headD 0 } :=
    fun s => Function.update_self ..
  simp only [Net.sockclose, acquire, taken]
  rfl

/-- `sockalloc` of a triple that is not in use. -/
theorem Table.sockalloc_opens {rest : List Nat} (table : s.Table opened queue)
    (few : opened.length ≤ NPAGES) (file : 0 < s.freeFiles) (page : s.freelist = si :: rest)
    (lock : s.nlock < NLOCK) (real : si ≠ 0) (notSock : si ∉ opened)
    (notQueued : ∀ so ∈ opened, si ∉ queue so)
    (unused : ∀ so ∈ opened, ¬ s.Uses so raddr lport rport) :
    ∃ net, s.sockalloc raddr lport rport = .ok (some si, net) ∧ net.freelist = rest ∧
      net.Table (si :: opened) (Function.update queue si []) := by
  have search := (table.searching rest raddr lport rport notSock notQueued).findSock few
    raddr lport rport
  have same : ∀ so ∈ opened, (s.searching si rest raddr lport rport).sock so = s.sock so :=
    fun so member => searching_sock (ne_of_mem_of_not_mem member notSock)
  have misses : (opened.find? fun so =>
      ((s.searching si rest raddr lport rport).sock so).is raddr lport rport) = none := by
    rw [List.find?_eq_none]
    intro so member
    rw [same so member]
    exact unused so member
  refine ⟨_, sockalloc_searches file page lock (search.trans (congrArg _ misses)), rfl, ?_⟩
  have started := table.searching rest raddr lport rport notSock notQueued
  have fields := linked_sock_self (s.searching si rest raddr lport rport) si
  rw [searching_sock_self] at fields
  refine started.opens real notSock ?_ rfl ?_ ?_ rfl ?_ ?_
  · intro so member
    rw [fields, Uses, same so member]
    exact unused so member
  · rw [fields]
  · intro so member
    exact linked_sock (ne_of_mem_of_not_mem member notSock)
  · rw [fields]
    rfl
  · rw [fields]
    rfl

end Net

open Net

/-- What a page is used for. -/
inductive PageUse where
  | none
  | free
  | sock
  | queued (so : Nat)
  | held
deriving DecidableEq

/-- Every page is used for one thing. -/
structure PagesUsed (s : NetSys) (queue : Nat → List Nat) (use : Nat → PageUse) : Prop where
  freelist_nodup : s.net.freelist.Nodup
  held_nodup : s.held.Nodup
  free : ∀ pa, pa ∈ s.net.freelist ↔ use pa = .free
  sock : ∀ pa, pa ∈ s.opened ↔ use pa = .sock
  held : ∀ pa, pa ∈ s.held ↔ use pa = .held
  queued : ∀ so ∈ s.opened, ∀ m ∈ queue so, use m = .queued so
  managed : ∀ pa, use pa ≠ .none → KERNBASE ≤ pa ∧ pa < PHYSTOP ∧ PGSIZE ∣ pa

/-- The invariant of the runs in which the table works. -/
def NetInv (s : NetSys) : Prop :=
  ∃ queue use, s.net.Table s.opened queue ∧ PagesUsed s queue use

namespace PagesUsed

variable {s : NetSys} {queue : Nat → List Nat} {use : Nat → PageUse} {so m pa : Nat}

/-- There are no more sockets than pages. -/
theorem few (pages : PagesUsed s queue use) (nodup : s.opened.Nodup) : s.opened.length ≤ NPAGES := by
  have index : ∀ pa ∈ s.opened, KERNBASE ≤ pa ∧ pa < PHYSTOP ∧ PGSIZE ∣ pa := fun pa member =>
    pages.managed pa (by rw [(pages.sock pa).mp member]; decide)
  have injective : (s.opened.map fun pa => (pa - KERNBASE) / PGSIZE).Nodup := by
    refine nodup.map_on ?_
    intro pa member pa' member' same
    obtain ⟨low, high, k, rfl⟩ := index pa member
    obtain ⟨low', high', k', rfl⟩ := index pa' member'
    simp only [KERNBASE, PGSIZE] at low low' same ⊢
    omega
  have inside : (s.opened.map fun pa => (pa - KERNBASE) / PGSIZE) ⊆ List.range NPAGES := by
    intro i
    rw [List.mem_map]
    rintro ⟨pa, member, rfl⟩
    obtain ⟨low, high, _⟩ := index pa member
    have : NPAGES = 32768 := by decide
    rw [List.mem_range, this]
    simp only [KERNBASE, PHYSTOP, PGSIZE] at low high ⊢
    omega
  have subperm := (injective.subperm inside).length_le
  simpa using subperm

/-- One page gets another use. -/
theorem move (pages : PagesUsed s queue use) (pa : Nat) (newUse : PageUse) {s' : NetSys}
    {queue' : Nat → List Nat}
    (freelist : s'.net.freelist.Nodup ∧
      ∀ a, a ∈ s'.net.freelist ↔ if a = pa then newUse = .free else a ∈ s.net.freelist)
    (opened : ∀ a, a ∈ s'.opened ↔ if a = pa then newUse = .sock else a ∈ s.opened)
    (held : s'.held.Nodup ∧ ∀ a, a ∈ s'.held ↔ if a = pa then newUse = .held else a ∈ s.held)
    (queued : ∀ so ∈ s'.opened, ∀ a ∈ queue' so,
      if a = pa then newUse = .queued so else so ∈ s.opened ∧ a ∈ queue so)
    (known : use pa ≠ .none) : PagesUsed s' queue' (Function.update use pa newUse) where
  freelist_nodup := freelist.1
  held_nodup := held.1
  free a := by
    rw [freelist.2, Function.update_apply]
    split
    · rfl
    · exact pages.free a
  sock a := by
    rw [opened, Function.update_apply]
    split
    · rfl
    · exact pages.sock a
  held a := by
    rw [held.2, Function.update_apply]
    split
    · rfl
    · exact pages.held a
  queued so member a inside := by
    have was := queued so member a inside
    rw [Function.update_apply]
    split at was
    · next here => rw [if_pos here, was]
    · next other =>
      rw [if_neg other]
      exact pages.queued so was.1 a was.2
  managed a := by
    rw [Function.update_apply]
    split
    · next here =>
      intro _
      rw [here]
      exact pages.managed pa known
    · exact pages.managed a

theorem used (pages : PagesUsed s queue use) (member : m ∈ queue so) (open_ : so ∈ s.opened) :
    m ∉ s.opened ∧ m ∉ s.net.freelist ∧ m ∉ s.held := by
  have kind := pages.queued so open_ m member
  rw [pages.sock, pages.free, pages.held, kind]
  exact ⟨nofun, nofun, nofun⟩

/-- What the first free page is not. -/
theorem ofFree (pages : PagesUsed s queue use) {rest : List Nat} (free : s.net.freelist = pa :: rest) :
    use pa = .free ∧ pa ∉ s.opened ∧ pa ∉ s.held ∧ pa ∉ rest ∧ pa ≠ 0 ∧
      ∀ so ∈ s.opened, pa ∉ queue so := by
  have kind : use pa = .free := (pages.free pa).mp (by simp [free])
  have nodup := pages.freelist_nodup
  rw [free, List.nodup_cons] at nodup
  refine ⟨kind, ?_, ?_, nodup.1, ?_, fun so open_ waiting => ?_⟩
  · rw [pages.sock, kind]
    exact nofun
  · rw [pages.held, kind]
    exact nofun
  · rintro rfl
    have := (pages.managed 0 (by rw [kind]; decide)).1
    simp [KERNBASE] at this
  · rw [pages.queued so open_ pa waiting] at kind
    cases kind

end PagesUsed

namespace NetInv

variable {s : NetSys} {so m pa : Nat} {net : Net} {raddr : BitVec 32} {lport rport : BitVec 16}

theorem kalloc (inv : NetInv s) (got : s.net.kalloc = some (pa, net)) :
    NetInv { s with net := net, held := pa :: s.held } := by
  obtain ⟨queue, use, table, pages⟩ := inv
  unfold Net.kalloc at got
  split at got
  · cases got
  · next rest free =>
    cases got
    obtain ⟨kind, notSock, notHeld, notRest, _, notQueued⟩ := pages.ofFree free
    have nodup := pages.freelist_nodup
    rw [free] at nodup
    refine ⟨queue, _, Table.junk table notSock notQueued,
      pages.move pa .held ⟨nodup.of_cons, fun a => ?_⟩ (fun a => ?_)
        ⟨List.nodup_cons.mpr ⟨notHeld, pages.held_nodup⟩, fun a => ?_⟩ ?_ (by rw [kind]; exact nofun)⟩
    · show a ∈ rest ↔ _
      rw [free]
      by_cases here : a = pa
      · subst here
        simpa using notRest
      · simp [here]
    · by_cases here : a = pa
      · subst here
        simpa using notSock
      · simp [here]
    · by_cases here : a = pa <;> simp [here]
    · intro so member a waiting
      rw [if_neg (ne_of_mem_of_not_mem waiting (notQueued so member))]
      exact ⟨member, waiting⟩

/-- `kfree` of a page that is given up by who had it. -/
theorem kfree {opened held : List Nat} {queue queue' : Nat → List Nat} {use : Nat → PageUse}
    (table : net.Table opened queue') (pages : PagesUsed s queue use)
    (freelist : net.freelist = s.net.freelist) (kind : use pa ≠ .none ∧ use pa ≠ .free)
    (sockets : ∀ a, a ∈ opened ↔ a ≠ pa ∧ a ∈ s.opened)
    (holds : held.Nodup ∧ ∀ a, a ∈ held ↔ a ≠ pa ∧ a ∈ s.held)
    (queued : ∀ so ∈ opened, ∀ a ∈ queue' so, a ≠ pa ∧ a ∈ queue so) :
    NetInv ⟨net.kfree pa, opened, held⟩ := by
  have notFree : pa ∉ s.net.freelist := fun member => kind.2 ((pages.free pa).mp member)
  refine ⟨queue', _, Table.junk table (fun member => ((sockets pa).mp member).1 rfl)
      (fun so member waiting => (queued so member pa waiting).1 rfl),
    pages.move pa .free ⟨?_, fun a => ?_⟩ (fun a => ?_) ⟨holds.1, fun a => ?_⟩ ?_ kind.1⟩
  · show (pa :: net.freelist).Nodup
    rw [freelist]
    exact List.nodup_cons.mpr ⟨notFree, pages.freelist_nodup⟩
  · show a ∈ pa :: net.freelist ↔ _
    rw [freelist]
    by_cases here : a = pa <;> simp [here]
  · rw [sockets]
    by_cases here : a = pa <;> simp [here]
  · rw [holds.2]
    by_cases here : a = pa <;> simp [here]
  · intro so member a waiting
    have was := queued so member a waiting
    rw [if_neg was.1]
    exact ⟨((sockets so).mp member).2, was.2⟩

/-- A page that the rest of the kernel holds is freed. -/
theorem kfree_held (inv : NetInv s) (member : pa ∈ s.held) :
    NetInv { s with net := s.net.kfree pa, held := s.held.erase pa } := by
  obtain ⟨queue, use, table, pages⟩ := inv
  have kind := (pages.held pa).mp member
  refine kfree table pages rfl (by rw [kind]; exact ⟨nofun, nofun⟩) (fun a => ?_)
    ⟨pages.held_nodup.erase pa, fun a => pages.held_nodup.mem_erase_iff⟩ (fun so open_ a waiting => ?_)
  · refine ⟨fun inside => ⟨?_, inside⟩, And.right⟩
    rintro rfl
    rw [(pages.sock a).mp inside] at kind
    cases kind
  · refine ⟨?_, waiting⟩
    rintro rfl
    exact (pages.used waiting open_).2.2 member

/-- The rest of the kernel writes to a page that it holds. -/
theorem store (inv : NetInv s) (member : pa ∈ s.held) (sock : Sock) (mbuf : Mbuf) :
    NetInv { s with net := (s.net.setSock pa fun _ => sock).setMbuf pa fun _ => mbuf } := by
  obtain ⟨queue, use, table, pages⟩ := inv
  refine ⟨queue, use, Table.junk table (fun inside => ?_) (fun so open_ waiting => ?_),
    pages.freelist_nodup, pages.held_nodup, pages.free, pages.sock, pages.held, pages.queued,
    pages.managed⟩
  · have kind := (pages.held pa).mp member
    rw [(pages.sock pa).mp inside] at kind
    cases kind
  · exact (pages.used waiting open_).2.2 member

theorem real (inv : NetInv s) (member : pa ∈ s.held) : pa ≠ 0 := by
  obtain ⟨_, use, _, pages⟩ := inv
  rintro rfl
  have := (pages.managed 0 (by rw [(pages.held 0).mp member]; exact nofun)).1
  simp [KERNBASE] at this

theorem receive (inv : NetInv s) (member : m ∈ s.held)
    (ran : s.net.sockrecvudp m raddr lport rport = .ok net) :
    NetInv { s with net := net, held := s.held.erase m } := by
  have freed := inv.kfree_held member
  have real := inv.real member
  obtain ⟨queue, use, table, pages⟩ := inv
  unfold sockrecvudp at ran
  rw [table.findSock (pages.few table.nodup), bind_ok] at ran
  obtain ⟨found, same, ran⟩ := ran
  cases same
  split at ran
  · cases ran
    exact freed
  · next so found =>
    have open_ := List.mem_of_find?_eq_some found
    rw [acquire, if_neg (by simpa using table.unlocked so open_)] at ran
    cases ran
    have kind := (pages.held m).mp member
    have elsewhere : ∀ c ∈ s.opened, m ∉ queue c := fun c inside waiting =>
      (pages.used waiting inside).2.2 member
    have apart : ∀ c ∈ s.opened, c ≠ so → ∀ a ∈ queue c, a ∉ queue so := by
      intro c inside other a waiting waiting'
      have one := pages.queued c inside a waiting
      rw [pages.queued so open_ a waiting'] at one
      cases one
      exact other rfl
    refine ⟨_, _, table.push open_ real elsewhere apart,
      pages.move m (.queued so) ⟨?_, fun a => ?_⟩ (fun a => ?_)
        ⟨pages.held_nodup.erase m, fun a => ?_⟩ ?_ (by rw [kind]; exact nofun)⟩
    · rw [(mbufqPushtail_kept ..).2.1]
      exact pages.freelist_nodup
    · rw [(mbufqPushtail_kept ..).2.1]
      by_cases here : a = m
      · subst here
        rw [pages.free, kind]
        simp
      · simp [here]
    · by_cases here : a = m
      · subst here
        show a ∈ s.opened ↔ _
        rw [pages.sock, kind]
        simp
      · simp [here]
    · rw [pages.held_nodup.mem_erase_iff]
      by_cases here : a = m <;> simp [here]
    · intro c inside a waiting
      by_cases here : c = so
      · subst here
        rw [Function.update_self, List.mem_append, List.mem_singleton] at waiting
        split
        · rfl
        · next other => exact ⟨inside, waiting.resolve_right other⟩
      · rw [Function.update_of_ne here] at waiting
        rw [if_neg (ne_of_mem_of_not_mem waiting (elsewhere c inside))]
        exact ⟨inside, waiting⟩

theorem sockread (inv : NetInv s) (member : so ∈ s.opened) (ran : s.net.sockread so = .ok net) :
    NetInv { s with net := net } := by
  obtain ⟨queue, use, table, pages⟩ := inv
  unfold Net.sockread acquire at ran
  rw [if_neg (by simpa using table.unlocked so member), bind_ok] at ran
  obtain ⟨_, _, ran⟩ := ran
  split at ran
  · cases ran
  · next m after popped =>
      cases ran
      obtain ⟨rest, first, table', sock, rfl, _⟩ := table.pop member popped
      have waits : m ∈ queue so := by simp [first]
      have kind := pages.queued so member m waits
      have once : m ∉ rest := by
        have nodup := (table.waiting so member).list.nodup
        rw [first, List.nodup_cons] at nodup
        exact nodup.1
      have unused := pages.used waits member
      refine kfree table' pages rfl (by rw [kind]; exact ⟨nofun, nofun⟩) (fun a => ?_)
        ⟨pages.held_nodup, fun a => ?_⟩ (fun c open_ a waiting => ?_)
      · refine ⟨fun inside => ⟨ne_of_mem_of_not_mem inside unused.1, inside⟩, And.right⟩
      · refine ⟨fun inside => ⟨ne_of_mem_of_not_mem inside unused.2.2, inside⟩, And.right⟩
      · by_cases here : c = so
        · subst here
          rw [Function.update_self] at waiting
          exact ⟨ne_of_mem_of_not_mem waiting once, by simp [first, waiting]⟩
        · rw [Function.update_of_ne here] at waiting
          refine ⟨?_, waiting⟩
          rintro rfl
          rw [pages.queued c open_ a waiting] at kind
          cases kind
          exact here rfl

theorem sockclose (inv : NetInv s) (member : so ∈ s.opened)
    (works : s.net.sockets = so → (s.net.sock so).next = 0) (ran : s.net.sockclose so = .ok net) :
    NetInv { s with
      net := { net with freeFiles := net.freeFiles + 1 }
      opened := s.opened.erase so } := by
  obtain ⟨queue, use, table, pages⟩ := inv
  obtain ⟨sockets, sock, unlinked, table', _⟩ :=
    table.unlinkSock (pages.few table.nodup) member works
  unfold Net.sockclose acquire at ran
  rw [if_neg (by simpa using table.unlocked so member), unlinked] at ran
  cases ran
  have kind := (pages.sock so).mp member
  have freed : NetInv ⟨({ s.net with sockets := sockets, sock := sock } : Net).kfree so,
      s.opened.erase so, s.held⟩ := by
    refine kfree table' pages rfl (by rw [kind]; exact ⟨nofun, nofun⟩)
      (fun a => table.nodup.mem_erase_iff) ⟨pages.held_nodup, fun a => ?_⟩ (fun c open_ a waiting => ?_)
    · refine ⟨fun inside => ⟨?_, inside⟩, And.right⟩
      rintro rfl
      rw [(pages.held a).mp inside] at kind
      cases kind
    · refine ⟨?_, waiting⟩
      rintro rfl
      exact (pages.used waiting (List.mem_of_mem_erase open_)).1 member
  obtain ⟨queue, use, table, pages⟩ := freed
  exact ⟨queue, use, table.congr rfl (fun _ _ => rfl) fun _ _ _ _ => rfl,
    pages.freelist_nodup, pages.held_nodup, pages.free, pages.sock, pages.held, pages.queued,
    pages.managed⟩

theorem sockalloc_none (inv : NetInv s) (works : TableWorks s (.sockalloc raddr lport rport))
    (ran : s.net.sockalloc raddr lport rport = .ok (none, net)) : net = s.net := by
  obtain ⟨queue, use, table, pages⟩ := inv
  obtain ⟨_, same⟩ | ⟨file, ⟨si, rest, page⟩, lock⟩ := sockalloc_cases ran
  · cases same
    rfl
  · obtain ⟨_, notSock, _, _, real, notQueued⟩ := pages.ofFree page
    obtain none | none | ⟨-, unused⟩ := works
    · omega
    · rw [page] at none
      cases none
    · obtain ⟨_, opens, _⟩ := table.sockalloc_opens (pages.few table.nodup) file page lock real
        notSock notQueued unused
      rw [opens] at ran
      cases ran

theorem sockalloc_some (inv : NetInv s) (works : TableWorks s (.sockalloc raddr lport rport))
    (ran : s.net.sockalloc raddr lport rport = .ok (some so, net)) :
    NetInv { s with net := net, opened := so :: s.opened } := by
  obtain ⟨queue, use, table, pages⟩ := inv
  obtain ⟨_, same⟩ | ⟨file, ⟨si, rest, page⟩, lock⟩ := sockalloc_cases ran
  · cases same
  · obtain ⟨kind, notSock, notHeld, notRest, real, notQueued⟩ := pages.ofFree page
    obtain none | none | ⟨-, unused⟩ := works
    · omega
    · rw [page] at none
      cases none
    · obtain ⟨after, opens, freelist, table'⟩ := table.sockalloc_opens (pages.few table.nodup) file
        page lock real notSock notQueued unused
      rw [opens] at ran
      cases ran
      have nodup := pages.freelist_nodup
      rw [page] at nodup
      refine ⟨_, _, table', pages.move so .sock ⟨?_, fun a => ?_⟩ (fun a => ?_)
        ⟨pages.held_nodup, fun a => ?_⟩ (fun c open_ a waiting => ?_) (by rw [kind]; exact nofun)⟩
      · show net.freelist.Nodup
        rw [freelist]
        exact nodup.of_cons
      · show a ∈ net.freelist ↔ _
        rw [freelist, page]
        by_cases here : a = so
        · subst here
          simpa using notRest
        · simp [here]
      · by_cases here : a = so <;> simp [here]
      · by_cases here : a = so
        · subst here
          simpa using notHeld
        · simp [here]
      · by_cases new : c = so
        · subst new
          simp at waiting
        · have old := (List.mem_cons.mp open_).resolve_left new
          rw [Function.update_of_ne new] at waiting
          rw [if_neg (ne_of_mem_of_not_mem waiting (notQueued c old))]
          exact ⟨old, waiting⟩

/-- The steps keep the invariant as long as the table works. -/
theorem inductive_ : netSystem.Inductive TableWorks NetInv where
  initial {s} valid := by
    obtain ⟨sockets, opened, held, nodup, managed⟩ := valid
    refine ⟨fun _ => [], fun pa => if pa ∈ s.net.freelist then .free else .none, ?_, ?_⟩
    · rw [opened]
      exact ⟨by rw [sockets]; exact .nil, nofun, nofun, nofun⟩
    · refine ⟨nodup, by rw [held]; exact List.nodup_nil, fun pa => ?_, fun pa => ?_, fun pa => ?_,
        by rw [opened]; exact nofun, fun pa used => ?_⟩
      · by_cases member : pa ∈ s.net.freelist <;> simp [member]
      · rw [opened]
        by_cases member : pa ∈ s.net.freelist <;> simp [member]
      · rw [held]
        by_cases member : pa ∈ s.net.freelist <;> simp [member]
      · by_cases member : pa ∈ s.net.freelist
        · exact managed pa member
        · exact absurd (if_neg member) used
  preserved inv works step := by
    cases step with
    | opens ran => exact inv.sockalloc_some works ran
    | rejects ran =>
        rw [inv.sockalloc_none works ran]
        exact inv
    | sockclose member ran => exact inv.sockclose member works ran
    | sockread member ran => exact inv.sockread member ran
    | receive member ran => exact inv.receive member ran
    | kalloc got => exact inv.kalloc got
    | kfree member => exact inv.kfree_held member
    | store member => exact inv.store member _ _

end NetInv

/-- What the socket table is for. -/
structure TableServes (s : NetSys) : Prop where
  lists : IsList (fun so => (s.net.sock so).next) 0 s.net.sockets s.opened
  once : s.opened.Nodup
  /-- Closing a socket returns, and takes it and no other off the list. -/
  closes : ∀ so ∈ s.opened, TableWorks s (.sockclose so) → ∃ net, s.net.sockclose so = .ok net ∧
    IsList (fun so => (net.sock so).next) 0 net.sockets (s.opened.erase so)
  /-- A packet goes to the open socket with its triple, and is freed if there is none. -/
  delivers : ∀ m raddr lport rport,
    (∀ so ∈ s.opened, s.net.Uses so raddr lport rport →
      s.net.sockrecvudp m raddr lport rport = .ok (s.net.mbufqPushtail so m)) ∧
    ((∀ so ∈ s.opened, ¬ s.net.Uses so raddr lport rport) →
      s.net.sockrecvudp m raddr lport rport = .ok (s.net.kfree m))
  /-- `sockalloc` accepts a triple if there are a file and a page for it. -/
  accepts : ∀ raddr lport rport, TableWorks s (.sockalloc raddr lport rport) →
    0 < s.net.freeFiles → s.net.freelist ≠ [] →
      ∃ so net, s.net.sockalloc raddr lport rport = .ok (some so, net)
  /-- It never accepts what is in use. -/
  rejects : ∀ raddr lport rport, (∃ so ∈ s.opened, s.net.Uses so raddr lport rport) →
    ¬ ∃ so net, s.net.sockalloc raddr lport rport = .ok (some so, net)
  /-- Without a file or a page it returns -1 and changes nothing. -/
  fails : ∀ raddr lport rport, s.net.freeFiles = 0 ∨ s.net.freelist = [] →
    s.net.sockalloc raddr lport rport = .ok (none, s.net)

namespace NetInv

variable {s : NetSys} {raddr : BitVec 32} {lport rport : BitVec 16} {m : Nat}

theorem closes (inv : NetInv s) {so : Nat} (member : so ∈ s.opened)
    (works : TableWorks s (.sockclose so)) : ∃ net, s.net.sockclose so = .ok net ∧
      IsList (fun so => (net.sock so).next) 0 net.sockets (s.opened.erase so) := by
  obtain ⟨queue, use, table, pages⟩ := id inv
  obtain ⟨sockets, sock, unlinked, _⟩ := table.unlinkSock (pages.few table.nodup) member works
  have ran : s.net.sockclose so = .ok ({ s.net with sockets := sockets, sock := sock }.kfree so) := by
    rw [Net.sockclose, acquire, if_neg (by simpa using table.unlocked so member), unlinked]
    rfl
  obtain ⟨_, _, table', _⟩ := inv.sockclose member works ran
  exact ⟨_, ran, table'.list⟩

theorem delivers_to (inv : NetInv s) {so : Nat} (member : so ∈ s.opened)
    (uses : s.net.Uses so raddr lport rport) :
    s.net.sockrecvudp m raddr lport rport = .ok (s.net.mbufqPushtail so m) := by
  obtain ⟨queue, use, table, pages⟩ := inv
  have hit : (s.opened.find? fun so => (s.net.sock so).is raddr lport rport).isSome = true :=
    List.find?_isSome.mpr ⟨so, member, uses⟩
  obtain ⟨found, isFound⟩ := Option.isSome_iff_exists.mp hit
  have member' := List.mem_of_find?_eq_some isFound
  obtain rfl : found = so := by
    have uses' : s.net.Uses found raddr lport rport :=
      List.find?_some (p := fun so => (s.net.sock so).is raddr lport rport) isFound
    obtain ⟨rfl, rfl, rfl⟩ := Sock.is_iff.mp uses
    exact table.distinct found member' so member uses'
  rw [sockrecvudp, table.findSock (pages.few table.nodup), isFound]
  have open_ : acquire s.net found = .ok () := by
    rw [acquire, if_neg (by simpa using table.unlocked found member)]
  show (do
    s.net.acquire found
    return s.net.mbufqPushtail found m) = _
  rw [open_]
  rfl

theorem delivers_none (inv : NetInv s) (unused : ∀ so ∈ s.opened, ¬ s.net.Uses so raddr lport rport) :
    s.net.sockrecvudp m raddr lport rport = .ok (s.net.kfree m) := by
  obtain ⟨queue, use, table, pages⟩ := inv
  have misses : (s.opened.find? fun so => (s.net.sock so).is raddr lport rport) = none := by
    rw [List.find?_eq_none]
    exact unused
  rw [sockrecvudp, table.findSock (pages.few table.nodup), misses]
  rfl

theorem accepts (inv : NetInv s) (works : TableWorks s (.sockalloc raddr lport rport))
    (file : 0 < s.net.freeFiles) (page : s.net.freelist ≠ []) :
    ∃ so net, s.net.sockalloc raddr lport rport = .ok (some so, net) := by
  obtain ⟨queue, use, table, pages⟩ := inv
  obtain ⟨lock, unused⟩ := (works.resolve_left (Nat.ne_of_gt file)).resolve_left page
  obtain ⟨si, rest, page⟩ := List.exists_cons_of_ne_nil page
  obtain ⟨_, notSock, _, _, real, notQueued⟩ := pages.ofFree page
  obtain ⟨net, ran, _⟩ := table.sockalloc_opens (pages.few table.nodup) file page lock real notSock notQueued
    unused
  exact ⟨si, net, ran⟩

theorem rejects (inv : NetInv s) (used : ∃ so ∈ s.opened, s.net.Uses so raddr lport rport) :
    ¬ ∃ so net, s.net.sockalloc raddr lport rport = .ok (some so, net) := by
  obtain ⟨queue, use, table, pages⟩ := inv
  obtain ⟨so, member, uses⟩ := used
  rintro ⟨so', net, ran⟩
  obtain ⟨-, none⟩ | ⟨file, ⟨si, rest, page⟩, lock⟩ := sockalloc_cases ran
  · cases none
  · obtain ⟨_, notSock, _, _, _, notQueued⟩ := pages.ofFree page
    rw [table.sockalloc_blocked (pages.few table.nodup) file page lock notSock notQueued member uses] at ran
    cases ran

end NetInv

/-- In every run in which the socket table works it serves its purpose. -/
theorem sockets_serve {s : NetSys} (run : netSystem.ReachableUnder TableWorks s) : TableServes s := by
  have inv := run.invariant NetInv.inductive_
  obtain ⟨queue, use, table, pages⟩ := id inv
  exact
    { lists := table.list
      once := table.nodup
      closes := fun so member works => inv.closes member works
      delivers := fun m raddr lport rport =>
        ⟨fun so member uses => inv.delivers_to member uses, fun unused => inv.delivers_none unused⟩
      accepts := fun raddr lport rport works file page => inv.accepts works file page
      rejects := fun raddr lport rport used => inv.rejects used
      fails := fun raddr lport rport none => sockalloc_fails none }

/-- A network with three free pages. -/
def threePages : NetSys where
  net :=
    { freelist := [KERNBASE, KERNBASE + PGSIZE, KERNBASE + 2 * PGSIZE]
      sock := fun _ => .filled 0
      mbuf := fun _ => .filled 0
      sockets := 0
      freeFiles := 3
      nlock := 0 }
  opened := []
  held := []

theorem threePages_initial : netSystem.Initial threePages := by
  refine ⟨rfl, rfl, rfl, by decide, ?_⟩
  decide

theorem sockets_serve_tailClosed :
    ∃ s, s.opened = [KERNBASE + PGSIZE] ∧ s.net.sockets = KERNBASE + PGSIZE ∧ TableServes s := by
  refine ⟨_, ?_, ?_, sockets_serve (.step (.step (.step (.initial threePages_initial)
    ?_ (@NetStep.opens _ 1 1 1 _ _ rfl))
    ?_ (@NetStep.opens _ 2 2 2 _ _ rfl))
    ?_ (@NetStep.sockclose _ KERNBASE _ (by decide) rfl))⟩
  · rfl
  · rfl
  · exact Or.inr (Or.inr ⟨by decide, nofun⟩)
  · refine Or.inr (Or.inr ⟨by decide, fun so member => ?_⟩)
    obtain rfl := List.mem_singleton.mp member
    exact nofun
  · exact nofun

/-- The socket opened last is closed: the head of the table is then a free page. -/
theorem sockets_serve_headClosed : ∃ s, netSystem.Reachable s ∧ s.opened = [KERNBASE] ∧
    s.net.sockets ∈ s.net.freelist ∧ ¬ TableServes s := by
  refine ⟨_, .step (.step (.step (.initial threePages_initial)
    trivial (@NetStep.opens _ 1 1 1 _ _ rfl))
    trivial (@NetStep.opens _ 2 2 2 _ _ rfl))
    trivial (@NetStep.sockclose _ (KERNBASE + PGSIZE) _ (by decide) rfl), rfl, by decide, ?_⟩
  intro serves
  have first : KERNBASE + PGSIZE = KERNBASE := serves.lists.of_cons.1
  revert first
  decide

end Riscv2os.Xv7
