import Riscv2os.Xv7.ExecImage
import Riscv2os.Xv7.ForkCall
import Riscv2os.Xv7.PathNames
import Riscv2os.Xv7.Teardown

/-!
# `exec` as a whole

`exec` with the path, the inode cache, the page table with the kernel's pages, and the registers and the name
that it sets. The exits behind `proc_pagetable` go to `proc_freepagetable` with the size so far, and without a
size that leaves the pages of the table allocated.
-/

namespace Riscv2os.Xv7

open Riscv2os.Std

/-- An inode as the functions that load a program see it. -/
def Content.asInode (ip : Content) : Inode := { size := ip.size, data := ip.byte }

/-- The registers in a trap frame that `exec` sets. -/
structure Registers where
  a1 : Nat := 0
  epc : Nat := 0
  sp : Nat := 0

/-- What `exec` works on: the processes with their memory, the inode cache, and of each process the registers
and the name. -/
structure ExecMachine where
  user : Machine
  icache : InodeCache.Cache
  regs : Fin NPROC → Registers
  name : Fin NPROC → List UInt8

/-- What follows the last slash of a path, as `exec` looks for it from `s` on. -/
def lastElem (last : List UInt8) : List UInt8 → List UInt8
  | [] => last
  | c :: s => if c = 0 then last else if c = 47 then lastElem s s else lastElem last s

/-- What `safestrcpy` leaves in a buffer of `n` bytes. -/
def safestrcpy (t : List UInt8) (n : Nat) : List UInt8 := (t.takeWhile (· ≠ 0)).take (n - 1)

namespace ExecMachine

/-- The free frames. -/
abbrev freelist (s : ExecMachine) : List Frame := s.user.kmem.freelist

/-- The exit `bad` of `exec`, with the new page table if there is one and the inode if it is locked. -/
def bad (s : ExecMachine) (p : Fin NPROC) (image : Option (Uvm × TopPages × Nat)) (ip : Option (Fin NINODE)) :
    Except Fault (Int × ExecMachine) := do
  let m ← match image with
    | some (u, top, sz) => top.procFreepagetable u sz
    | none => .ok s.user.kmem
  let icache ← match ip with
    | some ip => s.icache.iunlockput p ip
    | none => .ok s.icache
  return (-1, { s with user := { s.user with kmem := m }, icache := icache })

/-- The end of `exec`: commit to the user image. -/
def commit (s : ExecMachine) (p : Fin NPROC) (path : List UInt8) (u : Uvm) (top : TopPages)
    (sz entry sp argc : Nat) : Except Fault (Int × ExecMachine) := do
  let user ← s.user.execCommit p u top sz
  return (argc,
    { s with
      user := user
      regs := Function.update s.regs p ⟨sp, entry, sp⟩
      name := Function.update s.name p (safestrcpy (lastElem path path) 16) })

/-- `exec` from `proc_pagetable` on, with the file of the locked inode `ip` and its ELF header. -/
def loadProgram (s : ExecMachine) (p : Fin NPROC) (path : List UInt8) (argv : List (List UInt8))
    (ip : Fin NINODE) (file : Inode) (elf : Page) : Except Fault (Int × ExecMachine) := do
  let (u, top) ← procPagetable s.user.kmem (s.user.proc p).tf
  let (loaded, sz, u) ← u.loadSegments file (field elf 56 2) (field elf 32 8 % 2 ^ 32) 0
  if !loaded then s.bad p (some (u, top, sz)) (some ip)
  else
    let icache ← s.icache.iunlockput p ip
    let s := { s with icache := icache }
    let (args, sz, u) ← u.buildStack sz argv
    match args with
    | none => s.bad p (some (u, top, sz)) none
    | some (sp, argc) => s.commit p path u top sz (field elf 24 8) sp argc

variable (content : Dinode → Content)

/-- `exec`. The content of a file is a function of its inode. -/
def exec (s : ExecMachine) (p : Fin NPROC) (path : List UInt8) (argv : List (List UInt8)) :
    Except Fault (Int × ExecMachine) := do
  let (found, icache) ← s.icache.namei content p (s.user.proc p).cwd path []
  let s := { s with icache := icache }
  match found with
  | none => return (-1, s)
  | some ip =>
      let icache ← s.icache.ilock p ip
      let s := { s with icache := icache }
      let file := (content (s.icache.entry ip).inode).asInode
      let (elf, got) := file.readi (fun _ => 0) 0 64
      if got ≠ 64 then s.bad p none (some ip)
      else if field elf 0 4 ≠ ELF_MAGIC then s.bad p none (some ip)
      else s.loadProgram p path argv ip file elf

/-- What `exec` reads as the ELF header. -/
def elfhdr (file : Inode) : Page := (file.readi (fun _ => 0) 0 64).1

/-- The file begins with an ELF header, as far as `exec` looks. -/
def IsElf (file : Inode) : Prop :=
  (file.readi (fun _ => 0) 0 64).2 = 64 ∧ field (elfhdr file) 0 4 = ELF_MAGIC

instance (file : Inode) : Decidable (IsElf file) := inferInstanceAs (Decidable (_ ∧ _))

/-- A call that failed has left no trace: the processes, the registers, the names and the references to inodes
are what they were, and so are the memory of the process and the set of the free frames. -/
structure ExecUndone (s s' : ExecMachine) (p : Fin NPROC) : Prop where
  procs : s'.user.proc = s.user.proc
  regs : s'.regs = s.regs
  name : s'.name = s.name
  memory : ∀ f ∈ (s.user.proc p).pagetable.frames,
    s'.user.kmem.mem f = s.user.kmem.mem f
  refs : ∀ k, (s'.icache.entry k).ref = (s.icache.entry k).ref
  ids : ∀ k, 0 < (s.icache.entry k).ref → (s'.icache.entry k).id = (s.icache.entry k).id
  free : ∀ f, f ∈ s'.freelist ↔ f ∈ s.freelist

/-- The process has a new page table with the memory of its size, and goes on at the entry of the program
with the arguments. -/
structure Replaced (s s' : ExecMachine) (p : Fin NPROC) (argv : List (List UInt8)) (entry : Nat) (ret : Int) :
    Prop where
  length : ret = argv.length
  others : ∀ q, q ≠ p → s'.user.proc q = s.user.proc q
  root : (s'.user.proc p).pagetable.root ∈ s.freelist
  pages : UserPages (s'.user.proc p).sz (s'.user.proc p).pagetable
  epc : (s'.regs p).epc = entry
  sp : (s'.regs p).a1 = (s'.regs p).sp
  refs : ∀ k, (s'.icache.entry k).ref = (s.icache.entry k).ref

/-- The page table of the process can be freed: the kernel's pages have their entries, and above the memory
there is nothing, or there is no memory. -/
def Freeable (s : ExecMachine) (p : Fin NPROC) : Prop :=
  (s.user.proc p).top.Present (s.user.proc p).pagetable ∧
    ((s.user.proc p).sz = 0 ∨ (s.user.uvm p).NothingAbove (s.user.proc p).sz)

/-- There are frames for the segments of the program and the stack, or the program is refused behind a segment
with pages. If the arguments fit, the old page table can be freed. -/
def Recovers (s : ExecMachine) (p : Fin NPROC) (argv : List (List UInt8)) (file : Inode) (elf : Page) : Prop :=
  Proghdr.Recoverable file (s.freelist.length - 3)
    (fun sz => Uvm.frameCount (Uvm.pageCount sz + 2) ≤ s.freelist.length - 3 ∧
      (Uvm.StackFits argv → s.Freeable p))
    (field elf 56 2) (field elf 32 8 % 2 ^ 32) 0

variable {s s' : ExecMachine} {p : Fin NPROC} {path : List UInt8} {argv : List (List UInt8)} {ip : Fin NINODE}
  {file : Inode} {elf : Page} {u u' : Uvm} {top : TopPages} {sz newsz : Nat} {t : InodeCache.Cache}

theorem loadProgram_stopped
    (created : procPagetable s.user.kmem (s.user.proc p).tf = .ok (u, top))
    (load : u.loadSegments file (field elf 56 2) (field elf 32 8 % 2 ^ 32) 0 = .ok (false, sz, u')) :
    s.loadProgram p path argv ip file elf = s.bad p (some (u', top, sz)) (some ip) := by
  unfold loadProgram
  rw [created]
  simp only [bind, Except.bind, load]
  rfl

theorem loadProgram_loaded
    (created : procPagetable s.user.kmem (s.user.proc p).tf = .ok (u, top))
    (load : u.loadSegments file (field elf 56 2) (field elf 32 8 % 2 ^ 32) 0 = .ok (true, sz, u'))
    (put : s.icache.iunlockput p ip = .ok t) : s.loadProgram p path argv ip file elf =
      (u'.buildStack sz argv).bind fun result => result.1.elim
        (({ s with icache := t } : ExecMachine).bad p (some (result.2.2, top, result.2.1)) none)
        fun args => ({ s with icache := t } : ExecMachine).commit p path result.2.2 top result.2.1
          (field elf 24 8) args.1 args.2 := by
  unfold loadProgram
  rw [created]
  simp only [bind, Except.bind, load, put, Bool.not_true, Bool.false_eq_true, if_false]
  cases u'.buildStack sz argv with
  | error fault => rfl
  | ok result =>
      obtain ⟨args, sz', u''⟩ := result
      cases args <;> rfl

theorem bad_eq {m : Kmem} {lock : Option (Fin NINODE)} (freed : top.procFreepagetable u sz = .ok m)
    (put : lock.elim (.ok s.icache) (s.icache.iunlockput p) = .ok t) :
    s.bad p (some (u, top, sz)) lock =
      .ok (-1, { s with user := { s.user with kmem := m }, icache := t }) := by
  unfold bad
  simp only [freed]
  cases lock with
  | none =>
      cases put
      rfl
  | some ip =>
      have put' : s.icache.iunlockput p ip = .ok t := put
      simp only [put']
      rfl

/-- How `loadProgram` ends, with the inode unlocked and put: the call is undone, or the image is replaced, or
pages of the new table are lost, or `proc_freepagetable` panics. -/
inductive Outcome (s : ExecMachine) (p : Fin NPROC) (argv : List (List UInt8)) (entry : Nat)
    (t : InodeCache.Cache) (recovers : Prop) : Except Fault (Int × ExecMachine) → Prop where
  | undone {m : Kmem}
      (memory : ∀ f ∈ (s.user.proc p).pagetable.frames, m.mem f = s.user.kmem.mem f)
      (free : ∀ f, f ∈ m.freelist ↔ f ∈ s.freelist) (holds : recovers) :
      Outcome s p argv entry t recovers
        (.ok (-1, { s with user := { s.user with kmem := m }, icache := t }))
  | replaced {s' : ExecMachine} (cache : s'.icache = t)
      (done : ∀ s₀ : ExecMachine, s₀.user = s.user → (∀ k, (t.entry k).ref = (s₀.icache.entry k).ref) →
        s₀.Replaced s' p argv entry argv.length) (holds : recovers) :
      Outcome s p argv entry t recovers (.ok (argv.length, s'))
  | lost {s' : ExecMachine} {f : Frame} (before : f ∈ s.freelist) (after : f ∉ s'.freelist) (not : ¬ recovers) :
      Outcome s p argv entry t recovers (.ok (-1, s'))
  | stuck {fault : Fault} (not : ¬ recovers) : Outcome s p argv entry t recovers (.error fault)

/-- Without a size the root of the new table is lost. -/
theorem Outcome.noSize {entry : Nat} {recovers : Prop} {rest : Set Frame} {lock : Option (Fin NINODE)}
    (present : top.Present u.pagetable) (owns : u.Owns rest) (root : u.pagetable.root ∈ s.freelist)
    (put : lock.elim (.ok s.icache) (s.icache.iunlockput p) = .ok t) (not : ¬ recovers) :
    s.Outcome p argv entry t recovers (s.bad p (some (u, top, 0)) lock) := by
  have freed : top.procFreepagetable u 0 = .ok u.kmem := TopPages.procFreepagetable_present present
  rw [bad_eq freed put]
  exact .lost root (owns.not_free ⟨.root, rfl⟩) not

/-- With a size the table is freed. -/
theorem Outcome.sized {entry : Nat} {recovers : Prop} {rest : Set Frame} {lock : Option (Fin NINODE)}
    (present : top.Present u.pagetable) (sized : u.Sized rest sz) (positive : 0 < sz)
    (own : (s.user.proc p).pagetable.frames ⊆ rest)
    (memory : Set.EqOn u.kmem.mem s.user.kmem.mem rest) (pool : u.pool = {f | f ∈ s.freelist})
    (put : lock.elim (.ok s.icache) (s.icache.iunlockput p) = .ok t) (holds : recovers) :
    s.Outcome p argv entry t recovers (s.bad p (some (u, top, sz)) lock) := by
  obtain ⟨m, freed, free⟩ := sized.freeUser positive
  have mem := (Uvm.freeUser_keeps sized.owns freed).2
  rw [← TopPages.procFreepagetable_present present] at freed
  rw [bad_eq freed put]
  refine .undone (fun f inside => (mem (own inside)).trans (memory (own inside))) (fun f => ?_) holds
  rw [← Set.mem_ofPred_eq (p := fun f => f ∈ m.freelist), free, pool]
  rfl

/-- The commit replaces the image if the old page table can be freed. -/
theorem Outcome.commit {entry sp : Nat} {recovers : Prop} (inv : s.user.FrameInv)
    (used : (s.user.proc p).state ≠ .unused)
    (sized : u.Sized ((s.user.uvm p).pagetable.frames ∪ s.user.restFrames p) sz)
    (memory : Set.EqOn u.kmem.mem s.user.kmem.mem
      ((s.user.uvm p).pagetable.frames ∪ s.user.restFrames p))
    (root : u.pagetable.root ∈ s.freelist) (same : recovers ↔ s.Freeable p) :
    s.Outcome p argv entry t recovers
      (({ s with icache := t } : ExecMachine).commit p path u top sz entry sp argv.length) := by
  have ownsP := inv.owns used
  have old : (⟨u.kmem, (s.user.proc p).pagetable⟩ : Uvm).Owns
      (u.pagetable.frames ∪ s.user.restFrames p) := by
    refine ⟨sized.owns.keeps.mono ?_, ownsP.distinct, ?_⟩
    · rintro f (own | new | others)
      · exact .inr (.inl own)
      · exact .inl new
      · exact .inr (.inr others)
    · rintro f own (new | others)
      · exact sized.owns.apart f new (.inl own)
      · exact ownsP.apart f own others
  have above := Machine.nothingAbove_congr (s.user.uvm p) ⟨u.kmem, (s.user.proc p).pagetable⟩
    (s.user.proc p).sz (fun _ => rfl) (memory.mono Set.subset_union_left)
  have returns : (∃ m, (s.user.proc p).top.procFreepagetable ⟨u.kmem, (s.user.proc p).pagetable⟩
      (s.user.proc p).sz = .ok m) ↔ recovers := by
    simp only [TopPages.procFreepagetable_ok, exists_and_left]
    rw [same, Uvm.freeUser_returns old (inv.pages p used), above]
    rfl
  unfold ExecMachine.commit Machine.execCommit
  cases freed : (s.user.proc p).top.procFreepagetable ⟨u.kmem, (s.user.proc p).pagetable⟩
      (s.user.proc p).sz with
  | error fault =>
      simp only [freed]
      refine .stuck fun holds => ?_
      obtain ⟨m, ran⟩ := returns.mpr holds
      cases freed.symm.trans ran
  | ok m =>
      simp only [freed]
      refine .replaced rfl (fun s₀ user refs => ?_) (returns.mp ⟨m, freed⟩)
      refine ⟨rfl, fun q other => ?_, ?_, ?_, ?_, ?_, refs⟩
      · rw [user]
        exact Function.update_of_ne other ..
      · rw [freelist, user]
        simpa [Machine.updateProc] using root
      · simpa [Machine.updateProc] using sized.pages
      · simp
      · simp

theorem Outcome.of_cache {entry : Nat} {recovers : Prop} {cache : InodeCache.Cache}
    {ran : Except Fault (Int × ExecMachine)}
    (outcome : ({ s with icache := cache } : ExecMachine).Outcome p argv entry t recovers ran) :
    s.Outcome p argv entry t recovers ran := by
  cases outcome with
  | undone memory free holds => exact .undone memory free holds
  | replaced cache done holds => exact .replaced cache done holds
  | lost before after not => exact .lost before after not
  | stuck not => exact .stuck not

/-- `exec` behind the check of the ELF header, with frames for an empty page table. -/
theorem loadProgram_outcome (inv : s.user.FrameInv) (used : (s.user.proc p).state ≠ .unused)
    (enough : 3 ≤ s.freelist.length) (strlen : ∀ arg ∈ argv, arg.length < 2 ^ 31)
    (put : s.icache.iunlockput p ip = .ok t) :
    s.Outcome p argv (field elf 24 8) t (s.Recovers p argv file elf)
      (s.loadProgram p path argv ip file elf) := by
  have ownsP := inv.owns used
  have keeps : s.user.kmem.Keeps
      ((s.user.uvm p).pagetable.frames ∪ s.user.restFrames p) := ownsP.keeps
  obtain ⟨u₀, created, image₀, pool₀, mem₀, reach, reach'⟩ :=
    @procPagetable_image _ (s.user.proc p).tf _ keeps enough
  have few : s.freelist.length - 3 ≤ 2 ^ 15 := (Nat.sub_le _ _).trans keeps.length_le
  obtain ⟨result, load, extends₁, ends⟩ : ∃ result,
      u₀.loadSegments file (field elf 56 2) (field elf 32 8 % 2 ^ 32) 0 = .ok result ∧
        u₀.Extends result.2.2 ((s.user.uvm p).pagetable.frames ∪ s.user.restFrames p) ∧
        Uvm.Ends ((s.user.uvm p).pagetable.frames ∪ s.user.restFrames p)
          (s.freelist.length - 3) _ (s.Recovers p argv file elf) result := image₀.loadSegments _ few
  obtain ⟨loaded, sz, u₁⟩ := result
  -- what every later table has from the first
  have later : ∀ {u : Uvm},
      u₀.Extends u ((s.user.uvm p).pagetable.frames ∪ s.user.restFrames p) →
      (⟨true, some (s.user.proc p).tf⟩ : TopPages).Present u.pagetable ∧
        u.pagetable.root ∈ s.freelist ∧ u.pool = {f | f ∈ s.freelist} ∧
        Set.EqOn u.kmem.mem s.user.kmem.mem
          ((s.user.uvm p).pagetable.frames ∪ s.user.restFrames p) := by
    intro u extends_
    obtain ⟨rest, list⟩ := procPagetable_root created
    refine ⟨⟨⟨extends_.reaches reach, rfl⟩, extends_.reaches reach', rfl⟩, ?_, extends_.pool.trans pool₀,
      extends_.mem.trans mem₀⟩
    rw [extends_.root, freelist, list]
    exact List.mem_cons_self
  obtain ⟨present, root, pool, mem⟩ := later extends₁
  cases ends with
  | lost not =>
      rw [loadProgram_stopped created load]
      exact .noSize present extends₁.owns root put not
  | stopped positive image₁ recovers =>
      rw [loadProgram_stopped created load]
      exact .sized present image₁.toSized positive Set.subset_union_left mem pool put recovers
  | loaded image₁ same =>
      obtain ⟨args, sz', u₂, stack, extends₂, result⟩ := image₁.buildStack few strlen
      obtain ⟨present', root', pool', mem'⟩ := later (extends₁.trans extends₂)
      rw [loadProgram_loaded created load put, stack]
      rcases result with ⟨large, rfl, rfl⟩ | ⟨room, positive, sized, ⟨fits, sp, rfl⟩ | ⟨tooMany, rfl⟩⟩
      · have outcome : ({ s with icache := t } : ExecMachine).Outcome p argv (field elf 24 8) t
            (s.Recovers p argv file elf) (({ s with icache := t } : ExecMachine).bad p
              (some (u₂, ⟨true, some (s.user.proc p).tf⟩, 0)) none) :=
          .noSize present' extends₂.owns root' rfl fun recovers =>
            absurd (same.mp recovers).1 (not_le.mpr large)
        exact outcome.of_cache
      · exact .of_cache (.commit inv used sized mem' root' (same.trans ⟨fun last => last.2 fits,
          fun freeable => ⟨room, fun _ => freeable⟩⟩))
      · have outcome : ({ s with icache := t } : ExecMachine).Outcome p argv (field elf 24 8) t
            (s.Recovers p argv file elf) (({ s with icache := t } : ExecMachine).bad p
              (some (u₂, ⟨true, some (s.user.proc p).tf⟩, sz')) none) :=
          .sized present' sized positive Set.subset_union_left mem' pool' rfl
            (same.mpr ⟨room, fun fits => absurd fits tooMany⟩)
        exact outcome.of_cache

theorem bad_error {lock : Option (Fin NINODE)} {fault : Fault}
    (stuck : top.procFreepagetable u sz = .error fault) :
    s.bad p (some (u, top, sz)) lock = .error fault := by
  unfold bad
  simp only [stuck]
  rfl

/-- Without frames for an empty page table `exec` panics. -/
theorem loadProgram_few (few : s.freelist.length < 3) :
    ∃ fault, s.loadProgram p path argv ip file elf = .error fault := by
  by_cases empty : s.freelist = []
  · refine ⟨.panic "uvmcreate: out of memory", ?_⟩
    unfold loadProgram procPagetable Uvm.uvmcreate
    rw [Uvm.kalloc_none.mpr empty]
    rfl
  obtain ⟨u, top, created, none, -, away⟩ :=
    @procPagetable_few _ (s.user.proc p).tf empty few
  have stuck : top.procFreepagetable u 0 = .error (.panic "uvmunmap: walk") := by
    rw [TopPages.procFreepagetable, TopPages.unmap, away]
    rfl
  obtain ⟨loaded, load⟩ := @Uvm.loadSegments_empty _ file none (field elf 56 2) (field elf 32 8 % 2 ^ 32)
  cases loaded with
  | false =>
      rw [loadProgram_stopped created load]
      exact ⟨_, bad_error stuck⟩
  | true =>
      cases put : s.icache.iunlockput p ip with
      | error fault =>
          refine ⟨fault, ?_⟩
          unfold loadProgram
          rw [created]
          simp only [bind, Except.bind, load, put]
          rfl
      | ok t =>
          rw [loadProgram_loaded created load put, Uvm.buildStack_empty none]
          have failed : ({ s with icache := t } : ExecMachine).bad p (some (u, top, 0)) .none = _ :=
            bad_error stuck
          exact ⟨_, failed⟩

section Exec

open InodeCache InodeCache.Cache

variable {content : Dinode → Content} {d : Dinode}

/-- The file that a path leads to. -/
def fileOf (content : Dinode → Content) (s : ExecMachine) (id : Nat × Nat) : Inode :=
  (content (s.icache.disk id)).asInode

/-- `exec` is atomic: it replaces the image or leaves no trace, and it returns while there are frames for an
empty page table. -/
structure ExecAtomic (content : Dinode → Content) (s : ExecMachine) (p : Fin NPROC) (path : List UInt8)
    (argv : List (List UInt8)) : Prop where
  outcome : ∀ ret s', s.exec content p path argv = .ok (ret, s') →
    (∃ id, s.icache.resolve content (s.icache.start (s.user.proc p).cwd path) (names path) = some id ∧
      s.Replaced s' p argv (field (elfhdr (s.fileOf content id)) 24 8) ret) ∨
    ret = -1 ∧ s.ExecUndone s' p
  returns : 3 ≤ s.freelist.length → ∃ r, s.exec content p path argv = .ok r

/-- The path can be walked, and if it leads to a file that begins with an ELF header, `exec` recovers. -/
def ExecSafe (content : Dinode → Content) (s : ExecMachine) (p : Fin NPROC) (path : List UInt8)
    (argv : List (List UInt8)) : Prop :=
  s.icache.Passes content false (s.user.proc p).cwd path ∧
    ∀ id, s.icache.resolve content (s.icache.start (s.user.proc p).cwd path) (names path) = some id →
      (s.icache.disk id).type ≠ 0 ∧
        (IsElf (s.fileOf content id) → s.Recovers p argv (s.fileOf content id) (elfhdr (s.fileOf content id)))

theorem ExecAtomic.of_error {fault : Fault} (ran : s.exec content p path argv = .error fault) :
    ExecAtomic content s p path argv ↔ s.freelist.length < 3 := by
  constructor
  · intro atomic
    by_contra enough
    obtain ⟨r, ok⟩ := atomic.returns (not_lt.mp enough)
    cases ran.symm.trans ok
  · intro few
    refine ⟨fun ret s' ok => ?_, fun enough => absurd few (not_lt.mpr enough)⟩
    cases ran.symm.trans ok

theorem ExecAtomic.of_undone (ran : s.exec content p path argv = .ok (-1, s')) (undone : s.ExecUndone s' p) :
    ExecAtomic content s p path argv := by
  refine ⟨fun ret s'' ok => .inr ?_, fun _ => ⟨_, ran⟩⟩
  cases ran.symm.trans ok
  exact ⟨rfl, undone⟩

/-- With the references that there were nothing in the cache counts as a trace. -/
theorem ExecUndone.of_taken {m : Kmem} (taken : Taken s.icache t p (one none) none)
    (memory : ∀ f ∈ (s.user.proc p).pagetable.frames, m.mem f = s.user.kmem.mem f)
    (free : ∀ f, f ∈ m.freelist ↔ f ∈ s.freelist) :
    s.ExecUndone { s with user := { s.user with kmem := m }, icache := t } p where
  procs := rfl
  regs := rfl
  name := rfl
  memory := memory
  refs k := by
    rw [taken.ref]
    exact add_zero _
  ids := taken.same
  free := free

theorem exec_error {fault : Fault}
    (fails : s.icache.namei content p (s.user.proc p).cwd path [] = .error fault) :
    s.exec content p path argv = .error fault := by
  unfold exec
  rw [fails]
  rfl

theorem exec_none (absent : s.icache.namei content p (s.user.proc p).cwd path [] = .ok (none, t)) :
    s.exec content p path argv = .ok (-1, { s with icache := t }) := by
  unfold exec
  rw [absent]
  rfl

theorem exec_ilock {fault : Fault}
    (found : s.icache.namei content p (s.user.proc p).cwd path [] = .ok (some ip, t))
    (fails : t.ilock p ip = .error fault) : s.exec content p path argv = .error fault := by
  unfold exec
  rw [found]
  simp only [bind, Except.bind, fails]

/-- `exec` of a file that is no ELF file. -/
theorem exec_other {t' t'' : Cache}
    (found : s.icache.namei content p (s.user.proc p).cwd path [] = .ok (some ip, t))
    (lock : t.ilock p ip = .ok t') (other : ¬ IsElf (content (t'.entry ip).inode).asInode)
    (put : t'.iunlockput p ip = .ok t'') : s.exec content p path argv = .ok (-1, { s with icache := t'' }) := by
  have failed : ({ s with icache := t' } : ExecMachine).bad p none (some ip) =
      .ok (-1, { s with icache := t'' }) := by
    unfold bad
    simp only [put]
    rfl
  unfold exec
  rw [found]
  simp only [bind, Except.bind, lock]
  split
  · exact failed
  · next whole =>
    split
    · exact failed
    · next magic => exact absurd ⟨not_not.mp whole, not_not.mp magic⟩ other

/-- `exec` of an ELF file. -/
theorem exec_elf {t' : Cache}
    (found : s.icache.namei content p (s.user.proc p).cwd path [] = .ok (some ip, t))
    (lock : t.ilock p ip = .ok t') (elf : IsElf (content (t'.entry ip).inode).asInode) :
    s.exec content p path argv = ({ s with icache := t' } : ExecMachine).loadProgram p path argv ip
      (content (t'.entry ip).inode).asInode (elfhdr (content (t'.entry ip).inode).asInode) := by
  have magic : field ((content (t'.entry ip).inode).asInode.readi (fun _ => 0) 0 64).1 0 4 = ELF_MAGIC := elf.2
  unfold exec
  rw [found]
  simp only [bind, Except.bind, lock]
  rw [if_neg (not_not.mpr elf.1), if_neg (not_not.mpr magic)]
  rfl

/-- A path that begins at an inode in use leads to one that a put does not free. -/
theorem resolve_linked {c : Cache} (tree : c.Tree content) {start id : Nat × Nat} (linked : c.Linked start)
    {names : List (List UInt8)} (found : c.resolve content start names = some id) : c.Linked id := by
  induction names generalizing start with
  | nil =>
      cases found
      exact linked
  | cons name names ih =>
      rw [resolve_cons] at found
      obtain ⟨next, entry, rest⟩ := Option.bind_eq_some_iff.mp found
      exact ih (tree.linked _ _ _ entry) rest

/-- `exec` of a file: the reference that `namei` takes is given back. -/
theorem exec_file {id : Nat × Nat} (quiet : s.icache.Quiet) (tree : s.icache.Tree content)
    (held : 0 < (s.icache.entry (s.user.proc p).cwd).ref)
    (passes : s.icache.Passes content false (s.user.proc p).cwd path)
    (resolved : s.icache.resolve content (s.icache.start (s.user.proc p).cwd path) (names path) =
      some id)
    (typed : (s.icache.disk id).type ≠ 0) :
    ∃ ip t t', s.exec content p path argv = (if IsElf (s.fileOf content id) then
        ({ s with icache := t } : ExecMachine).loadProgram p path argv ip (s.fileOf content id)
          (elfhdr (s.fileOf content id))
        else .ok (-1, { s with icache := t' })) ∧
      t.iunlockput p ip = .ok t' ∧ Taken s.icache t' p (one none) none := by
  obtain ⟨⟨result, t⟩, found⟩ := (namei_returns content quiet tree p held path []).mpr passes
  obtain ⟨same, taken⟩ := (paths_resolve content s.icache quiet tree p _ held path []).namei result t found
  obtain ⟨ip, rfl, rfl⟩ := Option.map_eq_some_iff.mp (same.trans resolved)
  have mine : 1 ≤ one (some ip) ip := by simp [one]
  have linked : s.icache.Linked (s.icache.start (s.user.proc p).cwd path) := by
    unfold InodeCache.Cache.start
    split
    · exact tree.root
    · exact .of_used held
  rcases taken.ilock quiet mine with ⟨-, free⟩ | ⟨t', lock, locked, inode, -, ids⟩
  · exact absurd free typed
  have file : (content (t'.entry ip).inode).asInode = s.fileOf content (t.entry ip).id := by
    rw [inode, ids]
    rfl
  obtain ⟨put, after⟩ := locked.iunlockput quiet mine (by
    rw [ids]
    exact resolve_linked tree linked resolved)
  rw [plus_one_self] at after
  refine ⟨ip, t', _, ?_, put, after⟩
  by_cases elf : IsElf (s.fileOf content (t.entry ip).id)
  · rw [if_pos elf, exec_elf found lock (by rwa [file]), file]
  · rw [if_neg elf, exec_other found lock (by rwa [file]) put]

/-- `exec` of an ELF file. -/
theorem ExecAtomic.elf_iff {id : Nat × Nat} (inv : s.user.FrameInv)
    (used : (s.user.proc p).state ≠ .unused) (quiet : s.icache.Quiet) (tree : s.icache.Tree content)
    (held : 0 < (s.icache.entry (s.user.proc p).cwd).ref) (strlen : ∀ arg ∈ argv, arg.length < 2 ^ 31)
    (passes : s.icache.Passes content false (s.user.proc p).cwd path)
    (resolved : s.icache.resolve content (s.icache.start (s.user.proc p).cwd path) (names path) =
      some id)
    (typed : (s.icache.disk id).type ≠ 0) (elf : IsElf (s.fileOf content id)) :
    ExecAtomic content s p path argv ↔ s.freelist.length < 3 ∨
      s.Recovers p argv (s.fileOf content id) (elfhdr (s.fileOf content id)) := by
  obtain ⟨ip, t, t', ran, put, after⟩ := exec_file quiet tree held passes resolved typed
  rw [if_pos elf] at ran
  by_cases few : s.freelist.length < 3
  · obtain ⟨fault, stuck⟩ := @loadProgram_few { s with icache := t } p path argv ip
      (s.fileOf content id) (elfhdr (s.fileOf content id)) few
    rw [ExecAtomic.of_error (ran.trans stuck)]
    exact iff_of_true few (.inl few)
  have outcome := @loadProgram_outcome { s with icache := t } p path argv ip (s.fileOf content id)
    (elfhdr (s.fileOf content id)) _ inv used (not_lt.mp few) strlen put
  rw [or_iff_right few]
  revert ran outcome
  generalize ({ s with icache := t } : ExecMachine).loadProgram p path argv ip (s.fileOf content id)
    (elfhdr (s.fileOf content id)) = r
  intro ran outcome
  cases outcome with
  | undone memory free holds => exact iff_of_true (.of_undone ran (.of_taken after memory free)) holds
  | replaced cache done holds =>
      refine iff_of_true ⟨fun ret s' ok => .inl ⟨_, resolved, ?_⟩, fun _ => ⟨_, ran⟩⟩ holds
      cases ran.symm.trans ok
      exact done s rfl fun k => by
        rw [after.ref]
        exact add_zero _
  | lost before gone not =>
      refine iff_of_false (fun atomic => ?_) not
      rcases atomic.outcome _ _ ran with ⟨_, -, replaced⟩ | ⟨-, undone⟩
      · have length := replaced.length
        omega
      · exact gone ((undone.free _).mpr before)
  | stuck not =>
      refine iff_of_false (fun atomic => ?_) not
      obtain ⟨r, ok⟩ := atomic.returns (not_lt.mp few)
      cases ran.symm.trans ok

/-- When `exec` is atomic. -/
theorem exec_atomic_iff (inv : s.user.FrameInv) (used : (s.user.proc p).state ≠ .unused)
    (quiet : s.icache.Quiet) (tree : s.icache.Tree content)
    (held : 0 < (s.icache.entry (s.user.proc p).cwd).ref)
    (strlen : ∀ arg ∈ argv, arg.length < 2 ^ 31) :
    ExecAtomic content s p path argv ↔ s.freelist.length < 3 ∨ ExecSafe content s p path argv := by
  by_cases passes : s.icache.Passes content false (s.user.proc p).cwd path
  swap
  · cases found : s.icache.namei content p (s.user.proc p).cwd path [] with
    | error fault =>
        rw [ExecAtomic.of_error (exec_error found)]
        exact (or_iff_left fun safe => passes safe.1).symm
    | ok r => exact absurd ((namei_returns content quiet tree p held path []).mp ⟨r, found⟩) passes
  obtain ⟨⟨result, t⟩, found⟩ := (namei_returns content quiet tree p held path []).mpr passes
  obtain ⟨same, taken⟩ := (paths_resolve content s.icache quiet tree p _ held path []).namei result t found
  cases result with
  | none =>
      refine iff_of_true (.of_undone (exec_none found) (.of_taken taken (fun _ _ => rfl) fun _ => Iff.rfl))
        (.inr ⟨passes, fun id some => ?_⟩)
      cases same.trans some
  | some ip =>
      have resolved : s.icache.resolve content (s.icache.start (s.user.proc p).cwd path) (names path) =
          some (t.entry ip).id := same.symm
      have safe : ExecSafe content s p path argv ↔ (s.icache.disk (t.entry ip).id).type ≠ 0 ∧
          (IsElf (s.fileOf content (t.entry ip).id) → s.Recovers p argv (s.fileOf content (t.entry ip).id)
            (elfhdr (s.fileOf content (t.entry ip).id))) := by
        refine ⟨fun safe => safe.2 _ resolved, fun safe => ⟨passes, fun id some => ?_⟩⟩
        obtain rfl := Option.some.inj (resolved.symm.trans some)
        exact safe
      rw [safe]
      have mine : 1 ≤ one (some ip) ip := by simp [one]
      rcases taken.ilock quiet mine with ⟨fails, free⟩ | ⟨-, -, -, -, typed, -⟩
      · rw [ExecAtomic.of_error (exec_ilock found fails)]
        exact (or_iff_left fun typed => typed.1 free).symm
      rw [and_iff_right typed]
      by_cases elf : IsElf (s.fileOf content (t.entry ip).id)
      · rw [imp_iff_right elf]
        exact ExecAtomic.elf_iff inv used quiet tree held strlen passes resolved typed elf
      · obtain ⟨_, _, t', ran, -, after⟩ := exec_file quiet tree held passes resolved typed
        rw [if_neg elf] at ran
        refine iff_of_true (.of_undone ran (.of_taken after (fun _ _ => rfl) fun _ => Iff.rfl)) ?_
        exact .inr fun isElf => absurd isElf elf

/-- A directory with one entry, `a`, for inode 2. -/
def onlyA : Content := ⟨16, fun _ k => match k.val with | 0 => 2 | 2 => 97 | _ => 0⟩

/-- The content of that directory, and of a file that is an ELF header and has none of its `phnum` program
headers. -/
def onlyHeader (phnum : UInt8) (d : Dinode) : Content :=
  if d.type = T_DIR then onlyA
  else
    ⟨64, fun _ k => match k.val with
      | 0 => 0x7F | 1 => 0x45 | 2 => 0x4C | 3 => 0x46 | 32 => 64 | 56 => phnum | _ => 0⟩

/-- A process in that root directory, with `count` free frames. -/
def inRoot (count : Nat) : ExecMachine where
  user := .oneProcess count
  icache :=
    { entry := fun k => if k = 0 then { id := InodeCache.root, ref := 1 } else {}
      disk := fun id =>
        if id = InodeCache.root then ⟨T_DIR, 0, 0, 1, 16, fun _ => 0⟩
        else if id = (0, 2) then ⟨2, 0, 0, 1, 64, fun _ => 0⟩
        else ⟨0, 0, 0, 0, 0, fun _ => 0⟩ }
  regs := fun _ => {}
  name := fun _ => []

theorem inRoot_quiet (count : Nat) : (inRoot count).icache.Quiet := by
  have used : ∀ k, 0 < ((inRoot count).icache.entry k).ref → k = 0 := by
    intro k positive
    by_contra other
    simp [inRoot, other] at positive
  refine ⟨fun i j usedI usedJ _ => (used i usedI).trans (used j usedJ).symm, fun k usedK valid => ?_,
    fun k => ?_, fun k => ?_⟩
  · rw [used k usedK] at valid
    cases valid
  · by_cases first : k = 0 <;> simp [inRoot, first]
  · by_cases first : k = 0 <;> simp [inRoot, first]

theorem inRoot_linked (count : Nat) (id : Nat × Nat) : (inRoot count).icache.Linked id := by
  by_cases isRoot : id = InodeCache.root
  · exact .inr (.inl (by simp [inRoot, isRoot]))
  by_cases isFile : id = (0, 2)
  · exact .inr (.inl (by simp [inRoot, isFile, InodeCache.root]))
  · exact .inl (by simp [inRoot, isRoot, isFile])

theorem inRoot_tree (count : Nat) (phnum : UInt8) : (inRoot count).icache.Tree (onlyHeader phnum) := by
  refine ⟨fun id isDir => ?_, inRoot_linked count _, fun _ _ _ _ => inRoot_linked count _⟩
  rw [onlyHeader, if_pos isDir]
  refine ⟨by decide, rfl, fun i j name entry entry' => ?_⟩
  have first : DIRENT * i + DIRENT ≤ 16 := entry.inside
  have second : DIRENT * j + DIRENT ≤ 16 := entry'.inside
  simp only [DIRENT] at first second
  omega

/-- `a` stands for the file. -/
theorem inRoot_lookup (count : Nat) (phnum : UInt8) :
    (inRoot count).icache.lookup (onlyHeader phnum) InodeCache.root [97] = some (0, 2) := by
  have isDir : ((inRoot count).icache.disk InodeCache.root).type = T_DIR := rfl
  have directory := (inRoot_tree count phnum).directory _ isDir
  obtain ⟨found, run, hit, miss⟩ := Content.dirlookup_spec directory (.ofList [97])
  have entry : onlyA.Entry 0 (CString.name (.ofList [97])) := ⟨by decide, by decide, by decide⟩
  unfold InodeCache.Cache.lookup
  rw [if_pos isDir, run]
  cases found with
  | none => exact absurd entry (miss rfl 0)
  | some found =>
      obtain ⟨j, entry', number, -⟩ := hit found.1 found.2 rfl
      obtain rfl := directory.unique j 0 _ entry' entry
      obtain ⟨inum, off⟩ := found
      obtain rfl : inum = 2 := number
      rfl

/-- The path `/a` leads to the file. -/
theorem inRoot_path (count : Nat) (phnum : UInt8) :
    (inRoot count).icache.Passes (onlyHeader phnum) false 0 [47, 97] ∧
      (inRoot count).icache.resolve (onlyHeader phnum) ((inRoot count).icache.start 0 [47, 97])
        (names [47, 97]) = some (0, 2) := by
  have isRoot : (inRoot count).icache.start 0 [47, 97] = InodeCache.root := rfl
  have one : names [47, 97] = [[97]] := by decide
  rw [Passes, isRoot, one, resolve_cons, inRoot_lookup]
  have typed : ((inRoot count).icache.disk InodeCache.root).type = T_DIR := rfl
  refine ⟨⟨fun _ => .inl ⟨0, Int.one_pos, rfl⟩, by rw [typed]; decide, .inr fun next entry => ?_⟩, rfl⟩
  exact ⟨.inr (.inr (.inl ⟨1, 2, by decide, rfl, rfl⟩)), trivial⟩

/-- A program without segments is loaded: the image is a stack. -/
theorem exec_atomic_stack : ExecAtomic (onlyHeader 0) (inRoot 7) 0 [47, 97] [] := by
  have inv : (inRoot 7).user.FrameInv := .boot (Machine.oneProcess_boot (by decide))
  refine (exec_atomic_iff inv (by decide) (inRoot_quiet 7) (inRoot_tree 7 0) (by decide) (by simp)).mpr
    (.inr ⟨(inRoot_path 7 0).1, fun id resolved => ?_⟩)
  obtain rfl := Option.some.inj ((inRoot_path 7 0).2.symm.trans resolved)
  refine ⟨by decide, fun _ => ?_⟩
  have none : field (elfhdr ((inRoot 7).fileOf (onlyHeader 0) (0, 2))) 56 2 = 0 := by decide
  rw [Recovers, none]
  exact ⟨by decide, fun _ => ⟨⟨by decide, by decide⟩, .inl rfl⟩⟩

/-- Frames are lost: the file has no program header, and the pages of the new table stay allocated. -/
theorem exec_loses_frames : ∃ (content : Dinode → Content) (s : ExecMachine) (path : List UInt8),
    s.user.FrameInv ∧ (s.user.proc 0).state = .running ∧ s.icache.Quiet ∧
      s.icache.Tree content ∧ 0 < (s.icache.entry (s.user.proc 0).cwd).ref ∧
      ¬ ExecAtomic content s 0 path [] := by
  have inv : (inRoot 3).user.FrameInv := .boot (Machine.oneProcess_boot (by decide))
  refine ⟨onlyHeader 1, inRoot 3, [47, 97], inv, rfl, inRoot_quiet 3, inRoot_tree 3 1, by decide, ?_⟩
  obtain ⟨passes, resolved⟩ := inRoot_path 3 1
  have elf : IsElf ((inRoot 3).fileOf (onlyHeader 1) (0, 2)) := by decide
  rw [ExecAtomic.elf_iff inv (by decide) (inRoot_quiet 3) (inRoot_tree 3 1) (by decide) (by simp) passes
    resolved (by decide) elf]
  rintro (few | recovers)
  · exact absurd few (by decide)
  · have one : field (elfhdr ((inRoot 3).fileOf (onlyHeader 1) (0, 2))) 56 2 = 1 := by decide
    have header : Proghdr.read ((inRoot 3).fileOf (onlyHeader 1) (0, 2))
        (field (elfhdr ((inRoot 3).fileOf (onlyHeader 1) (0, 2))) 32 8 % 2 ^ 32) = none := by
      have place : field (elfhdr ((inRoot 3).fileOf (onlyHeader 1) (0, 2))) 32 8 % 2 ^ 32 = 64 := by decide
      rw [place]
      rfl
    rw [Recovers, one] at recovers
    exact absurd ((Proghdr.recoverable_none header 0).mp recovers) (lt_irrefl 0)

end Exec

end ExecMachine

end Riscv2os.Xv7
