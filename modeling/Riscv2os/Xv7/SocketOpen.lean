import Riscv2os.Xv7.File
import Riscv2os.Xv7.SocketTable

/-!
# Opening a socket with its file

`sockalloc` with the table of open files in place of a count of free files. Its error exit frees the page of
the socket and closes the file, and closing a file of the type `FD_SOCK` closes its socket.
-/

namespace Riscv2os.Xv7

open Riscv2os.Std

/-- The network with the file table, and the socket of each file. -/
structure NetFiles where
  net : Net
  ftable : Ftable
  sock : Fin NFILE → Nat

namespace NetFiles

/-- `fileclose`, which also closes the socket of a file of that type. -/
def fileclose (s : NetFiles) (f : Fin NFILE) : Except Fault NetFiles := do
  let ff := s.ftable.file f
  let ftable ← s.ftable.fileclose f
  let s := { s with ftable := ftable }
  if ff.ref - 1 > 0 then return s
  if ff.type = .sock then
    let net ← s.net.sockclose (s.sock f)
    return { s with net := net }
  else return s

/-- Open a socket. The result is its file, or `none` for -1. -/
def sockalloc (s : NetFiles) (raddr : BitVec 32) (lport rport : BitVec 16) :
    Except Fault (Option (Fin NFILE) × NetFiles) :=
  match s.ftable.filealloc with
  | none => .ok (none, s)
  | some (f, ftable) =>
      match s.net.kalloc with
      | none => do
          let s ← { s with ftable := ftable }.fileclose f
          return (none, s)
      | some (si, net) => do
          let net ← net.initlock
          let net := net.setSock si fun sock =>
            { sock with
              raddr := raddr
              lport := lport
              rport := rport
              locked := 0
              rxq := { sock.rxq with head := 0 } }
          let s : NetFiles :=
            { net := net
              ftable := ftable.updateFile f fun file =>
                { file with type := .sock, readable := true, writable := true }
              sock := Function.update s.sock f si }
          match ← s.net.findSock raddr lport rport with
          | some _ =>
              let s ← { s with net := s.net.kfree si }.fileclose f
              return (none, s)
          | none =>
              let net := s.net.setSock si fun sock => { sock with next := s.net.sockets }
              return (some f, { s with net := { net with sockets := si } })

variable {s s' : NetFiles} {raddr : BitVec 32} {lport rport : BitVec 16} {f : Fin NFILE}

/-- A file that nobody uses has no type. -/
def Closed (t : Ftable) : Prop := ∀ f, (t.file f).ref = 0 → (t.file f).type = .none

/-- The list of sockets and their queues, the files in use and the free pages are what they were. -/
structure Unchanged (s s' : NetFiles) (opened : List Nat) (queue : Nat → List Nat) : Prop where
  table : s'.net.Table opened queue
  sockets : s'.net.sockets = s.net.sockets
  socks : ∀ so ∈ opened, s'.net.sock so = s.net.sock so
  files : s'.ftable.file = s.ftable.file
  pages : s'.net.freelist = s.net.freelist

/-- Without a file nothing happens. -/
theorem sockalloc_noFile (none : s.ftable.filealloc = none) :
    s.sockalloc raddr lport rport = .ok (.none, s) := by
  rw [sockalloc, none]

theorem filealloc_eq {t t' : Ftable} (alloc : t.filealloc = some (f, t')) :
    (t.file f).ref = 0 ∧ t' = t.updateFile f fun file => { file with ref := 1 } := by
  unfold Ftable.filealloc at alloc
  split at alloc
  · next found free =>
    cases alloc
    exact ⟨by simpa using List.find?_some free, rfl⟩
  · cases alloc

/-- Without a page the file, which has no type yet, is closed again. -/
theorem sockalloc_noPage {ftable : Ftable} (closed : Closed s.ftable)
    (file : s.ftable.filealloc = some (f, ftable)) (empty : s.net.freelist = []) :
    s.sockalloc raddr lport rport = .ok (none, s) := by
  obtain ⟨free, rfl⟩ := filealloc_eq file
  have type := closed f free
  have noPage : s.net.kalloc = none := by rw [Net.kalloc, empty]
  have restored : Function.update s.ftable.file f
      { s.ftable.file f with type := .none, ref := 0 } = s.ftable.file := by
    rw [← free, ← type]
    exact Function.update_eq_self ..
  rw [sockalloc, file]
  simp only [noPage, fileclose, Ftable.fileclose, Ftable.updateFile, Function.update_self, type,
    Function.update_idem, restored]
  rfl

/-- Closing the one reference to a file of a socket closes the socket. -/
theorem fileclose_sock (one : (s.ftable.file f).ref = 1) (type : (s.ftable.file f).type = .sock) :
    ∃ ftable, s.fileclose f = (do
      let net ← s.net.sockclose (s.sock f)
      return { s with net := net, ftable := ftable }) := by
  refine ⟨s.ftable.updateFile f fun file => { file with ref := 0, type := .none }, ?_⟩
  have closes : s.ftable.fileclose f =
      .ok (s.ftable.updateFile f fun file => { file with ref := 0, type := .none }) := by
    simp only [Ftable.fileclose, one, type]
    rfl
  simp only [fileclose, closes, one, type]
  rfl

/-- The network with another count of free files, which the file table replaces. -/
def counted (net : Net) (n : Nat) : Net := { net with freeFiles := n }

/-- Closing a socket does not depend on the count. -/
theorem sockclose_counted (net : Net) (n so : Nat) :
    (counted net n).sockclose so = (net.sockclose so).map (counted · n) := by
  have unlink : (counted net n).unlinkSock so = (net.unlinkSock so).map (counted · n) := by
    unfold Net.unlinkSock counted
    by_cases empty : net.sockets = 0
    · simp only [empty, if_true]
      rfl
    by_cases last : (net.sock net.sockets).next = 0
    · simp only [empty, last, if_true, if_false]
      generalize LinkedList.findBefore _ (_ : Nat) _ _ _ = found
      rcases found with _ | _ | _ <;> rfl
    · simp only [empty, last, if_false]
      generalize LinkedList.findBefore _ (_ : Nat) _ _ _ = found
      rcases found with _ | _ | _ <;> rfl
  have acquire : (counted net n).acquire so = net.acquire so := rfl
  rw [Net.sockclose, Net.sockclose, unlink, acquire]
  cases net.acquire so with
  | error => rfl
  | ok =>
    cases net.unlinkSock so with
    | error => rfl
    | ok => rfl

/-- Nor do taking a page and registering a lock. -/
theorem kalloc_counted (net : Net) (n : Nat) :
    (counted net n).kalloc = net.kalloc.map fun got => (got.1, counted got.2 n) := by
  unfold Net.kalloc counted
  cases net.freelist <;> rfl

theorem initlock_counted (net : Net) (n : Nat) :
    (counted net n).initlock = net.initlock.map (counted · n) := by
  unfold Net.initlock counted
  by_cases full : net.nlock ≥ NLOCK
  · simp only [full, if_true]
    rfl
  · simp only [full, if_false]
    rfl

/-- The model of `sockalloc` that counts the free files does what this one does. -/
theorem sockalloc_net (closed : Closed s.ftable) {n : Nat} (slots : n = 0 ↔ s.ftable.filealloc = none) :
    (s.sockalloc raddr lport rport).map (fun result => (result.1.map result.2.sock, counted result.2.net 0)) =
      ((counted s.net n).sockalloc raddr lport rport).map fun result => (result.1, counted result.2 0) := by
  have slots' : (counted s.net n).freeFiles = 0 ↔ s.ftable.filealloc = none := slots
  by_cases none : s.ftable.filealloc = .none
  · rw [sockalloc_noFile none, Net.sockalloc, if_pos (slots'.mpr none)]
    rfl
  obtain ⟨⟨f, ftable⟩, file⟩ := Option.ne_none_iff_exists'.mp none
  cases page : s.net.kalloc with
  | none =>
    have empty : s.net.freelist = [] := by
      unfold Net.kalloc at page
      split at page
      · assumption
      · cases page
    rw [sockalloc_noPage closed file empty, Net.sockalloc, if_neg (mt slots'.mp none), kalloc_counted, page]
    rfl
  | some got =>
    obtain ⟨si, net⟩ := got
    rw [sockalloc, file, Net.sockalloc, if_neg (mt slots'.mp none), kalloc_counted, page]
    simp only [Option.map_some, initlock_counted]
    cases net.initlock with
    | error => rfl
    | ok net =>
      let opening := net.setSock si fun sock =>
        { sock with
          raddr := raddr
          lport := lport
          rport := rport
          locked := 0
          rxq := { sock.rxq with head := 0 } }
      show Except.map _ ((opening.findSock raddr lport rport).bind _) =
        Except.map _ ((opening.findSock raddr lport rport).bind _)
      rcases opening.findSock raddr lport rport with _ | _ | found
      · rfl
      · show Except.ok (some (Function.update s.sock f si f), _) = Except.ok (some si, _)
        rw [Function.update_self]
        rfl
      · obtain ⟨_, rfl⟩ := filealloc_eq file
        obtain ⟨closed, closes⟩ := fileclose_sock (f := f)
          (s := { net := opening.kfree si
                  ftable := (s.ftable.updateFile f fun file => { file with ref := 1 }).updateFile f fun file =>
                    { file with type := .sock, readable := true, writable := true }
                  sock := Function.update s.sock f si })
          (by simp [Ftable.updateFile]) (by simp [Ftable.updateFile])
        show Except.map _ (Except.bind (fileclose _ f) _) =
          Except.map _ (Except.bind ((counted (opening.kfree si) (n - 1 + 1)).sockclose si) _)
        rw [closes, sockclose_counted]
        simp only [Function.update_self]
        cases (opening.kfree si).sockclose si <;> rfl

/-- Opening a triple in use with a file and a page never returns -1: the socket is freed, and closing the file
closes it again. -/
theorem sockalloc_used {opened held : List Nat} (inv : NetInv ⟨s.net, opened, held⟩) {so : Nat}
    (closed : Closed s.ftable) (file : s.ftable.filealloc ≠ none) (page : s.net.freelist ≠ [])
    (member : so ∈ opened) (uses : s.net.Uses so raddr lport rport) (s' : NetFiles) :
    s.sockalloc raddr lport rport ≠ .ok (none, s') := by
  obtain ⟨si, rest, page⟩ := List.exists_cons_of_ne_nil page
  obtain ⟨queue, use, table, pages⟩ := inv
  obtain ⟨_, notSock, _, _, _, notQueued⟩ := pages.ofFree page
  have same := @sockalloc_net s raddr lport rport closed 1
    (iff_of_false one_ne_zero file)
  have table' : (counted s.net 1).Table opened queue := table.congr rfl (fun _ _ => rfl) fun _ _ _ _ => rfl
  intro ran
  rw [ran] at same
  by_cases lock : s.net.nlock < NLOCK
  · have blocked := table'.sockalloc_blocked (pages.few table.nodup) Nat.one_pos page lock notSock notQueued
      member uses
    rw [blocked] at same
    cases same
  · have panics : (counted s.net 1).sockalloc raddr lport rport = .error (.panic "initlock") :=
      Net.sockalloc_panics Nat.one_pos page (not_lt.mp lock)
    rw [panics] at same
    cases same

/-- A triple in use, the file table full or no memory: exactly when a file slot or the page is what is missing
does `sockalloc` return -1, and then everything is as it was. -/
theorem sockalloc_unchanged_iff {opened held : List Nat} {queue : Nat → List Nat}
    (inv : NetInv ⟨s.net, opened, held⟩) (table : s.net.Table opened queue) (closed : Closed s.ftable)
    (fails : s.ftable.filealloc = none ∨ s.net.freelist = [] ∨
      ∃ so ∈ opened, s.net.Uses so raddr lport rport) :
    (∃ s', s.sockalloc raddr lport rport = .ok (none, s') ∧ s.Unchanged s' opened queue) ↔
      s.ftable.filealloc = none ∨ s.net.freelist = [] := by
  have unchanged : s.Unchanged s opened queue := ⟨table, rfl, fun _ _ => rfl, rfl, rfl⟩
  by_cases file : s.ftable.filealloc = none
  · exact iff_of_true ⟨s, sockalloc_noFile file, unchanged⟩ (.inl file)
  by_cases page : s.net.freelist = []
  · obtain ⟨⟨f, ftable⟩, found⟩ := Option.ne_none_iff_exists'.mp file
    exact iff_of_true ⟨s, sockalloc_noPage closed found page, unchanged⟩ (.inr page)
  obtain ⟨so, member, uses⟩ := (fails.resolve_left file).resolve_left page
  constructor
  · rintro ⟨s', ran, _⟩
    exact absurd ran (sockalloc_used inv closed file page member uses s')
  · rintro (none | empty)
    · exact absurd none file
    · exact absurd empty page

/-- The network of `s` with nothing in the file table. -/
def noFiles (net : Net) : NetFiles where
  net := net
  ftable := ⟨fun _ => {}, fun _ => {}⟩
  sock := fun _ => 0

theorem noFiles_closed (net : Net) : Closed (noFiles net).ftable := fun _ _ => rfl

/-- A network with one free page. -/
def onePage : NetSys where
  net := { threePages.net with freelist := [KERNBASE] }
  opened := []
  held := []

theorem onePage_initial : netSystem.Initial onePage := by
  refine ⟨rfl, rfl, rfl, by decide, ?_⟩
  decide

/-- The only page is that of an open socket. -/
theorem sockalloc_unchanged_full : ∃ s s' : NetFiles, ∃ so queue, s.net.sockets = so ∧ so ≠ 0 ∧
    s.sockalloc 2 2 2 = .ok (none, s') ∧ s.Unchanged s' [so] queue := by
  have works : TableWorks onePage (.sockalloc 1 1 1) := .inr (.inr ⟨by decide, fun so member => by cases member⟩)
  have run : netSystem.ReachableUnder TableWorks _ :=
    .step (.initial onePage_initial) works (@NetStep.opens onePage 1 1 1 _ _ rfl)
  have inv := run.invariant NetInv.inductive_
  obtain ⟨queue, use, table, pages⟩ := id inv
  obtain ⟨s', ran, unchanged⟩ :
      ∃ s', (noFiles _).sockalloc 2 2 2 = .ok (none, s') ∧ (noFiles _).Unchanged s' _ _ :=
    (sockalloc_unchanged_iff inv table (noFiles_closed _) (.inr (.inl rfl))).mpr (.inr rfl)
  exact ⟨_, s', KERNBASE, queue, rfl, by decide, ran, unchanged⟩

/-- The triple of an open socket, with a file slot and a page. -/
theorem sockalloc_changes : ∃ (s : NetFiles) (opened held : List Nat),
    netSystem.Reachable ⟨s.net, opened, held⟩ ∧ Closed s.ftable ∧ (∃ so ∈ opened, s.net.Uses so 1 1 1) ∧
      s.sockalloc 1 1 1 = .error .blocked := by
  refine ⟨noFiles _, _, _, .step (.initial threePages_initial) trivial (@NetStep.opens _ 1 1 1 _ _ rfl),
    noFiles_closed _, ⟨KERNBASE, by decide, rfl⟩, rfl⟩

end NetFiles

end Riscv2os.Xv7
