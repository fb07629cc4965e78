import Riscv2os.Xv7.FileAccounting

/-!
# The frames of all processes

Every frame that a process refers to is its own and is counted once, and no free
frame is counted, in every run. A mapping that `fork` copies has no pages in the child,
so `mmap_dup` never counts a page twice. The user pages are those below the size of
the process and those of the window for mappings.
-/

namespace Riscv2os.Xv7

open Riscv2os.Std

/-- What the bounds of an entry of `minfo` can be: no user page lies between them
unless the window does. -/
def MapInfo.High (map : MapInfo) : Prop := 2 ^ 36 ≤ map.vstart ∨ map.used = false ∧ map.vend = 0

/-- The parts of a process that say which frames it owns. -/
structure SameMemory (proc proc' : Proc) : Prop where
  state : proc'.state = proc.state
  sz : proc'.sz = proc.sz
  pagetable : proc'.pagetable = proc.pagetable
  top : proc'.top = proc.top
  tf : proc'.tf = proc.tf

theorem SameMemory.refl (proc : Proc) : SameMemory proc proc := ⟨rfl, rfl, rfl, rfl, rfl⟩

theorem SameMemory.trans {proc proc' proc'' : Proc} (first : SameMemory proc proc')
    (second : SameMemory proc' proc'') : SameMemory proc proc'' :=
  ⟨second.state.trans first.state, second.sz.trans first.sz,
    second.pagetable.trans first.pagetable, second.top.trans first.top, second.tf.trans first.tf⟩

namespace Machine

/-- All frames that processes refer to. -/
def frames (s : Machine) : Set Frame := {f | ∃ o, s.frameOf o = some f}

/-- The frames of the processes other than `p`. -/
def othersFrames (s : Machine) (p : Fin NPROC) : Set Frame :=
  {f | ∃ o : Owner, o.proc ≠ p ∧ s.frameOf o = some f}

/-- The frames that are not of the page table of `p`. -/
abbrev restFrames (s : Machine) (p : Fin NPROC) : Set Frame :=
  insert (s.proc p).tf (s.othersFrames p)

variable {s s' : Machine} {p np : Fin NPROC}

theorem frameOf_same {o : Owner} (same : SameMemory (s.proc o.proc) (s'.proc o.proc)) :
    s'.frameOf o = s.frameOf o := by
  unfold frameOf
  rw [same.state]
  cases o with
  | table q place =>
      change (if _ then _ else (s'.proc q).pagetable.frameAt place) = _
      rw [show (s'.proc q).pagetable = (s.proc q).pagetable from same.pagetable]
  | tf q =>
      change (if _ then _ else some (s'.proc q).tf) = _
      rw [show (s'.proc q).tf = (s.proc q).tf from same.tf]

namespace FramesOwned

/-- A process and the others divide the frames. -/
theorem owns (owned : s.FramesOwned) (used : (s.proc p).state ≠ .unused) :
    (s.uvm p).Owns (s.restFrames p) ∧ (s.proc p).tf ∉ s.othersFrames p := by
  have table : ∀ {place f}, (s.proc p).pagetable.frameAt place = some f →
      s.frameOf (.table p place) = some f := by
    intro place f found
    exact (if_neg used).trans found
  have tf : s.frameOf (.tf p) = some (s.proc p).tf := if_neg used
  refine ⟨⟨owned.keeps.mono ?_, ?_, ?_⟩, ?_⟩
  · rintro f (⟨place, found⟩ | rfl | ⟨o, _, found⟩)
    · exact ⟨_, table found⟩
    · exact ⟨_, tf⟩
    · exact ⟨o, found⟩
  · intro place place' f found found'
    have same := owned.unique (table found) (table found')
    injection same
  · rintro f ⟨place, found⟩ (rfl | ⟨o, apart, found'⟩)
    · cases owned.unique (table found) tf
    · have same := owned.unique (table found) found'
      rw [← same] at apart
      exact apart rfl
  · rintro ⟨o, apart, found⟩
    have same := owned.unique tf found
    rw [← same] at apart
    exact apart rfl

/-- The division of the frames is put together again when `p` has changed its own. -/
theorem assemble (owned : s.FramesOwned)
    (others : ∀ q, q ≠ p → SameMemory (s.proc q) (s'.proc q))
    (own : (s'.uvm p).Owns (insert (s'.proc p).tf (s.othersFrames p)))
    (fresh : (s'.proc p).tf ∉ s.othersFrames p) : s'.FramesOwned := by
  have cases : ∀ {o f}, s'.frameOf o = some f →
      (∃ place, o = .table p place ∧ (s'.proc p).pagetable.frameAt place = some f) ∨
      (o = .tf p ∧ f = (s'.proc p).tf) ∨ (o.proc ≠ p ∧ s.frameOf o = some f) := by
    intro o f found
    by_cases mine : o.proc = p
    · unfold frameOf at found
      split at found
      · cases found
      cases o with
      | table q place =>
          obtain rfl : q = p := mine
          exact .inl ⟨place, rfl, found⟩
      | tf q =>
          obtain rfl : q = p := mine
          exact .inr (.inl ⟨rfl, (Option.some.inj found).symm⟩)
    · exact .inr (.inr ⟨mine, by rwa [frameOf_same (others o.proc mine)] at found⟩)
  constructor
  · intro o o' f found found'
    rcases cases found with ⟨place, rfl, at_⟩ | ⟨rfl, rfl⟩ | ⟨apart, at_⟩ <;>
      rcases cases found' with ⟨place', rfl, at'⟩ | ⟨rfl, same⟩ | ⟨apart', at'⟩
    · rw [own.distinct at_ at']
    · subst same
      exact absurd (Set.mem_insert _ _) (own.apart _ ⟨place, at_⟩)
    · exact (own.apart _ ⟨place, at_⟩ (Set.mem_insert_of_mem _ ⟨o', apart', at'⟩)).elim
    · exact absurd (Set.mem_insert _ _) (own.apart _ ⟨place', at'⟩)
    · rfl
    · exact (fresh ⟨o', apart', at'⟩).elim
    · exact (own.apart _ ⟨place', at'⟩ (Set.mem_insert_of_mem _ ⟨o, apart, at_⟩)).elim
    · subst same
      exact (fresh ⟨o, apart, at_⟩).elim
    · exact owned.unique at_ at'
  · refine own.keeps.mono ?_
    rintro f ⟨o, found⟩
    rcases cases found with ⟨place, rfl, at_⟩ | ⟨rfl, rfl⟩ | ⟨apart, at_⟩
    · exact .inl ⟨place, at_⟩
    · exact .inr (Set.mem_insert _ _)
    · exact .inr (Set.mem_insert_of_mem _ ⟨o, apart, at_⟩)

/-- The others still own their frames when `p` is gone. -/
theorem release (owned : s.FramesOwned)
    (others : ∀ q, q ≠ p → SameMemory (s.proc q) (s'.proc q))
    (unused : (s'.proc p).state = .unused) (keeps : s'.kmem.Keeps (s.othersFrames p)) :
    s'.FramesOwned := by
  have cases : ∀ {o f}, s'.frameOf o = some f → o.proc ≠ p ∧ s.frameOf o = some f := by
    intro o f found
    by_cases mine : o.proc = p
    · unfold frameOf at found
      rw [mine, if_pos unused] at found
      cases found
    · exact ⟨mine, by rwa [frameOf_same (others o.proc mine)] at found⟩
  constructor
  · intro o o' f found found'
    exact owned.unique (cases found).2 (cases found').2
  · refine keeps.mono ?_
    rintro f ⟨o, found⟩
    exact ⟨o, cases found⟩

end FramesOwned

/-- What every step of every run keeps true of the memory. -/
structure FrameInv (s : Machine) : Prop where
  owned : s.FramesOwned
  pages : ∀ p, (s.proc p).state ≠ .unused → UserPages (s.proc p).sz (s.proc p).pagetable
  unused : ∀ p, (s.proc p).state = .unused → (s.proc p).sz = 0
  maps : ∀ p i, ((s.proc p).minfo i).High

namespace FrameInv

theorem owns (inv : s.FrameInv) (used : (s.proc p).state ≠ .unused) :
    (s.uvm p).Owns (s.restFrames p) := (inv.owned.owns used).1

/-- What is not about memory does not matter. -/
theorem of_same (inv : s.FrameInv) (kmem : s'.kmem = s.kmem)
    (procs : ∀ q, SameMemory (s.proc q) (s'.proc q)) (maps : ∀ q i, ((s'.proc q).minfo i).High) :
    s'.FrameInv := by
  constructor
  · constructor
    · intro o o' f found found'
      rw [frameOf_same (procs o.proc)] at found
      rw [frameOf_same (procs o'.proc)] at found'
      exact inv.owned.unique found found'
    · rw [kmem]
      refine inv.owned.keeps.mono ?_
      rintro f ⟨o, found⟩
      exact ⟨o, by rwa [frameOf_same (procs o.proc)] at found⟩
  · intro q used
    rw [(procs q).state] at used
    rw [(procs q).sz, (procs q).pagetable]
    exact inv.pages q used
  · intro q unused
    rw [(procs q).state] at unused
    rw [(procs q).sz]
    exact inv.unused q unused
  · exact maps

/-- One process changes its memory. -/
theorem update (inv : s.FrameInv) (others : ∀ q, q ≠ p → SameMemory (s.proc q) (s'.proc q))
    (own : (s'.uvm p).Owns (insert (s'.proc p).tf (s.othersFrames p)))
    (fresh : (s'.proc p).tf ∉ s.othersFrames p) (used : (s'.proc p).state ≠ .unused)
    (pages : UserPages (s'.proc p).sz (s'.proc p).pagetable)
    (maps : ∀ q i, ((s'.proc q).minfo i).High) : s'.FrameInv := by
  constructor
  · exact inv.owned.assemble others own fresh
  · intro q usedQ
    by_cases same : q = p
    · subst same
      exact pages
    · rw [(others q same).state] at usedQ
      rw [(others q same).sz, (others q same).pagetable]
      exact inv.pages q usedQ
  · intro q unused
    by_cases same : q = p
    · subst same
      exact absurd unused used
    · rw [(others q same).state] at unused
      rw [(others q same).sz]
      exact inv.unused q unused
  · exact maps

/-- A process is gone. -/
theorem release (inv : s.FrameInv) (others : ∀ q, q ≠ p → SameMemory (s.proc q) (s'.proc q))
    (unused : (s'.proc p).state = .unused) (zero : (s'.proc p).sz = 0)
    (keeps : s'.kmem.Keeps (s.othersFrames p)) (maps : ∀ q i, ((s'.proc q).minfo i).High) :
    s'.FrameInv := by
  constructor
  · exact inv.owned.release others unused keeps
  · intro q usedQ
    by_cases same : q = p
    · subst same
      exact absurd unused usedQ
    · rw [(others q same).state] at usedQ
      rw [(others q same).sz, (others q same).pagetable]
      exact inv.pages q usedQ
  · intro q unusedQ
    by_cases same : q = p
    · subst same
      exact zero
    · rw [(others q same).state] at unusedQ
      rw [(others q same).sz]
      exact inv.unused q unusedQ
  · exact maps

end FrameInv

end Machine

/-- Entries outside of the user memory can go. -/
theorem UserPages.remove {sz : Nat} {pt pt' : PageTable} (pages : UserPages sz pt)
    (fewer : ∀ vpn, pt'.leaves.lookup vpn = none ∨ pt'.leaves.lookup vpn = pt.leaves.lookup vpn)
    (heap : ∀ vpn, vpn * PGSIZE < sz → pt'.leaves.lookup vpn = pt.leaves.lookup vpn) :
    UserPages sz pt' := by
  constructor
  · intro vpn below
    rw [heap vpn below]
    exact pages.heap vpn below
  · intro vpn pte found
    rcases fewer vpn with gone | same
    · rw [found] at gone
      cases gone
    · exact pages.mapped (same.symm.trans found)

namespace Machine

variable {s s' : Machine} {p np : Fin NPROC}

theorem sameMemory_updateProc (s : Machine) (m : Kmem) (change : Proc → Proc) (q : Fin NPROC)
    (apart : q ≠ p) :
    SameMemory (s.proc q) ((({ s with kmem := m } : Machine).updateProc p change).proc q) := by
  rw [show (({ s with kmem := m } : Machine).updateProc p change).proc q = s.proc q from
    Function.update_of_ne apart ..]
  exact .refl _

theorem withUvm_uvm (s : Machine) (p : Fin NPROC) (u : Uvm) : (s.withUvm p u).uvm p = u := by
  simp [uvm, withUvm, updateProc]

namespace FrameInv

/-- A function on the page table of a process. -/
theorem table (inv : s.FrameInv) (used : (s.proc p).state ≠ .unused) {u : Uvm}
    (owns : u.Owns (s.restFrames p)) (pages : UserPages (s.proc p).sz u.pagetable) :
    (s.withUvm p u).FrameInv := by
  have own : (s.withUvm p u).proc p = { s.proc p with pagetable := u.pagetable } :=
    Function.update_self ..
  apply inv.update (p := p)
  · exact fun q apart => sameMemory_updateProc s u.kmem _ q apart
  · rw [withUvm_uvm, own]
    exact owns
  · rw [own]
    exact (inv.owned.owns used).2
  · rw [own]
    exact used
  · rw [own]
    exact pages
  · intro q i
    rw [(Kept.withUvm s p u).minfo]
    exact inv.maps q i

theorem kill (inv : s.FrameInv) : (s.kill p).FrameInv := by
  refine inv.of_same rfl (fun q => ?_) fun q i => ?_
  · by_cases same : q = p
    · subst same
      rw [show (s.kill q).proc q = { s.proc q with killed := true } from Function.update_self ..]
      exact ⟨rfl, rfl, rfl, rfl, rfl⟩
    · rw [show (s.kill p).proc q = s.proc q from Function.update_of_ne same ..]
      exact .refl _
  · rw [(Kept.kill s p).minfo]
    exact inv.maps q i

/-- A user store. -/
theorem storeByte {va : Nat} {pte : Pte} {byte : UInt8} (inv : s.FrameInv)
    (used : (s.proc p).state ≠ .unused)
    (found : (s.proc p).pagetable.lookup va = some pte) : (s.storeByte p va pte byte).FrameInv := by
  have owns := inv.owns used
  have pages := inv.pages p used
  apply inv.table used
  · refine (owns.setPage _ : (⟨_, (s.proc p).pagetable⟩ : Uvm).Owns _).same ?_
    · rw [PageTable.frameAt_setLeaf]
      change _ = (s.proc p).pagetable.frameAt
      rw [Function.update_eq_self_iff]
      have place : (s.proc p).pagetable.frameAt (.leaf (va / PGSIZE)) = some pte.pa :=
        Option.map_eq_some_iff.mpr ⟨pte, found, rfl⟩
      exact place.symm
  · have entry := Uvm.leafAt_setLeaf (m := s.kmem) (s.proc p).pagetable va { pte with d := true }
    constructor
    · intro vpn below
      by_cases same : vpn = va / PGSIZE
      · obtain ⟨pte', found', rights⟩ := pages.heap vpn below
        rw [same, show (s.proc p).pagetable.leaves.lookup (va / PGSIZE) = some pte from found] at found'
        cases found'
        exact ⟨_, (entry vpn).trans (if_pos same), rights⟩
      · obtain ⟨pte', found', rights⟩ := pages.heap vpn below
        exact ⟨pte', ((entry vpn).trans (if_neg same)).trans found', rights⟩
    · intro vpn pte' found'
      have place := (entry vpn).symm.trans found'
      by_cases same : vpn = va / PGSIZE
      · rw [if_pos same] at place
        cases place
        rw [same]
        have before := pages.mapped found
        exact before
      · rw [if_neg same] at place
        exact pages.mapped place

/-- A page fault. -/
theorem pageFault {va : Nat} (inv : s.FrameInv) (used : (s.proc p).state ≠ .unused)
    (ran : s.pageFault p va = .ok s') : s'.FrameInv := by
  rcases pageFault_cases ran with rfl | ⟨i, f, mem, m, mapped, u, faults, mapping, rfl⟩
  · exact inv.kill
  obtain ⟨fresh, allocated, _⟩ := (inv.owns used).kalloc faults.free
  have filled : (s.filled p va i f mem m).Owns
      (insert (filePte ((s.proc p).minfo i) mem).pa (s.restFrames p)) :=
    allocated.setPage (f := mem) (s.filePage f ((s.proc p).minfo i) (pgRoundDown va))
  obtain ⟨_, spec⟩ := Uvm.mappages_spec filled fresh mapping
  have pages := inv.pages p used
  cases mapped with
  | false =>
      obtain ⟨owns, leaves⟩ := spec
      simp only [Bool.false_eq_true, if_false]
      apply kill
      refine inv.table used (owns.kfree fresh).1 (pages.congr fun vpn => ?_)
      change u.pagetable.leaves.lookup vpn = _
      rw [leaves]
      rfl
  | true =>
      obtain ⟨_, owns, leaves⟩ := spec
      rw [Uvm.pgRoundDown_div] at leaves
      refine inv.table used owns ⟨fun vpn below => ?_, fun {vpn pte} found => ?_⟩
      · have outside : vpn ≠ va / PGSIZE := by
          rintro rfl
          have bound := pages.sz_le (inv.owns used)
          have low := faults.window.1
          simp only [PGSIZE, MMAP_VSTART] at below low
          omega
        obtain ⟨pte, found, rights⟩ := pages.heap vpn below
        exact ⟨pte, ((leaves vpn).trans (if_neg outside)).trans found, rights⟩
      · have entry := (leaves vpn).symm.trans found
        split at entry
        · next same =>
          cases entry
          right
          obtain ⟨low, high⟩ := faults.window
          refine ⟨?_, ?_, rfl, rfl⟩
          · rw [same]
            simp only [PGSIZE, MMAP_VSTART] at low ⊢
            omega
          · rw [same]
            exact lt_of_le_of_lt (Nat.div_mul_le_self va PGSIZE) high
        · exact pages.mapped entry

theorem access {va : Nat} {byte : Option UInt8} (inv : s.FrameInv)
    (used : (s.proc p).state ≠ .unused) (ran : s.access p va byte = .ok s') : s'.FrameInv := by
  rcases access_cases ran with ⟨_, _, rfl⟩ | ⟨b, pte, _, found, _, rfl⟩ | fault
  · exact inv
  · exact inv.storeByte used found
  · exact inv.pageFault used fault

/-- A round of the loop of `sys_munmap`, which works on the window. -/
theorem munmapPage {map : MapInfo} {vpageBase va : Nat} (inv : s.FrameInv)
    (used : (s.proc p).state ≠ .unused) (window : MMAP_VSTART ≤ va) (aligned : va % PGSIZE = 0)
    (ran : munmapPage p map vpageBase s va = .ok s') : s'.FrameInv := by
  rcases munmapPage_cases ran with ⟨_, rfl⟩ | ⟨pte, written, u, found, wrote, dropped, rfl⟩
  · exact inv
  have kept : written.kmem = s.kmem ∧ written.proc = s.proc := by
    rcases writeBack_cases wrote with rfl | ⟨ip, change, rfl⟩ <;> exact ⟨rfl, rfl⟩
  have inv : written.FrameInv := inv.of_same kept.1
    (fun q => by rw [kept.2]; exact .refl _) fun q i => by rw [kept.2]; exact inv.maps q i
  have used : (written.proc p).state ≠ .unused := by rwa [kept.2]
  rw [← kept.2] at found
  have pages := inv.pages p used
  have bound := pages.sz_le (inv.owns used)
  obtain ⟨shrinks, leaves⟩ := Uvm.dropPage_shrinks (inv.owns used) found dropped
  refine inv.table used shrinks.owns (pages.remove (fun vpn => ?_) fun vpn below => ?_)
  · have entry := leaves vpn
    split at entry
    · exact .inl entry
    · exact .inr entry
  · refine (leaves vpn).trans (if_neg ?_)
    rintro (rfl | ⟨unaligned, _⟩)
    · simp only [PGSIZE, MMAP_VSTART] at below window
      omega
    · exact unaligned aligned

end FrameInv

end Machine

namespace Machine

variable {s s' : Machine} {p np : Fin NPROC}

/-- What is done to files and to entries of `minfo`, one process after the other. -/
structure SameMemories (s s' : Machine) : Prop where
  kmem : s'.kmem = s.kmem
  procs : ∀ q, SameMemory (s.proc q) (s'.proc q)
  maps : ∀ q, (s'.proc q).minfo = (s.proc q).minfo

theorem SameMemories.refl (s : Machine) : SameMemories s s := ⟨rfl, fun _ => .refl _, fun _ => rfl⟩

theorem SameMemories.trans {s'' : Machine} (first : SameMemories s s')
    (second : SameMemories s' s'') : SameMemories s s'' :=
  ⟨second.kmem.trans first.kmem, fun q => (first.procs q).trans (second.procs q),
    fun q => (second.maps q).trans (first.maps q)⟩

/-- A change of the table of open files. -/
theorem SameMemories.ofile (s : Machine) (ftable : Ftable) (p : Fin NPROC)
    (change : Proc → Fin NOFILE → Option (Fin NFILE)) :
    SameMemories s (({ s with ftable := ftable } : Machine).updateProc p fun proc =>
      { proc with ofile := change proc }) := by
  refine ⟨rfl, fun q => ?_, fun q => ?_⟩
  · by_cases same : q = p
    · subst same
      simp only [updateProc, Function.update_self]
      exact ⟨rfl, rfl, rfl, rfl, rfl⟩
    · simp only [updateProc, Function.update_of_ne same]
      exact .refl _
  · by_cases same : q = p
    · subst same
      simp [updateProc]
    · simp [updateProc, same]

theorem SameMemories.ftable (s : Machine) (ftable : Ftable) :
    SameMemories s { s with ftable := ftable } := ⟨rfl, fun _ => .refl _, fun _ => rfl⟩

theorem fdalloc_same {f : Fin NFILE} (found : s.fdalloc p f = some s') : SameMemories s s' := by
  obtain ⟨fd, _, rfl⟩ := fdalloc_cases found
  exact .ofile s s.ftable p _

theorem openInode_same {ip : Fin NINODE} {type : FileType} {readable writable opened : Bool}
    (ran : s.openInode p ip type readable writable = .ok (opened, s')) : SameMemories s s' := by
  unfold openInode at ran
  split at ran
  · cases ran
    exact .ftable s _
  simp only at ran
  split at ran
  · rw [bind_ok] at ran
    obtain ⟨ftable, _, ran⟩ := ran
    cases ran
    exact .ftable s _
  · next found =>
    cases ran
    exact ((SameMemories.ftable s _).trans (fdalloc_same found)).trans (.ftable _ _)

theorem sysDup_same {fd : Fin NOFILE} {done : Bool} (ran : s.sysDup p fd = .ok (done, s')) :
    SameMemories s s' := by
  unfold sysDup at ran
  split at ran
  · cases ran
    exact .refl _
  split at ran
  · cases ran
    exact .refl _
  · next found =>
    rw [bind_ok] at ran
    obtain ⟨ftable, _, ran⟩ := ran
    cases ran
    exact (fdalloc_same found).trans (.ftable _ _)

theorem sysClose_same {fd : Fin NOFILE} {done : Bool} (ran : s.sysClose p fd = .ok (done, s')) :
    SameMemories s s' := by
  unfold sysClose at ran
  split at ran
  · cases ran
    exact .refl _
  · rw [bind_ok] at ran
    obtain ⟨ftable, _, ran⟩ := ran
    cases ran
    exact (SameMemories.ofile s s.ftable p fun proc =>
      Function.update proc.ofile fd none).trans (.ftable _ _)

theorem exitFiles_same (ran : s.exitFiles p = .ok s') : SameMemories s s' := by
  refine foldlM_invariant (fun t => SameMemories s t) ?_ (.refl s) ran
  intro fd t next same ran
  split at ran
  · cases ran
    exact same
  · rw [bind_ok] at ran
    obtain ⟨ftable, _, ran⟩ := ran
    cases ran
    exact same.trans (.ofile t ftable p _)

theorem forkFiles_same (ran : s.forkFiles p np = .ok s') : SameMemories s s' := by
  refine foldlM_invariant (fun t => SameMemories s t) ?_ (.refl s) ran
  intro fd t next same ran
  split at ran
  · cases ran
    exact same
  · rw [bind_ok] at ran
    obtain ⟨ftable, _, ran⟩ := ran
    cases ran
    exact same.trans (.ofile t ftable np _)

namespace FrameInv

theorem of_sames (inv : s.FrameInv) (same : SameMemories s s') : s'.FrameInv :=
  inv.of_same same.kmem same.procs fun q i => by rw [same.maps]; exact inv.maps q i

/-- An entry of `minfo` changes. -/
theorem updateMap (inv : s.FrameInv) {i : Fin MMAP_NUM} {change : MapInfo → MapInfo}
    (high : (change ((s.proc p).minfo i)).High) : (s.updateMap p i change).FrameInv := by
  refine inv.of_same rfl (fun q => ?_) fun q j => ?_
  · by_cases same : q = p
    · subst same
      simp only [Machine.updateMap, updateProc, Function.update_self]
      exact ⟨rfl, rfl, rfl, rfl, rfl⟩
    · simp only [Machine.updateMap, updateProc, Function.update_of_ne same]
      exact .refl _
  · by_cases same : q = p
    · subst same
      simp only [Machine.updateMap, updateProc, Function.update_self]
      by_cases entry : j = i
      · subst entry
        rw [Function.update_self]
        exact high
      · rw [Function.update_of_ne entry]
        exact inv.maps q j
    · simp only [Machine.updateMap, updateProc, Function.update_of_ne same]
      exact inv.maps q j

theorem sysMmap {addr : Nat} {length prot flags fd offset : BitVec 32} {va : Option Nat}
    (inv : s.FrameInv) (ran : s.sysMmap p addr length prot flags fd offset = .ok (va, s')) :
    s'.FrameInv := by
  rcases sysMmap_cases ran with ⟨_, rfl⟩ | ⟨f, i, _, ftable, _, _, _, _, _, rfl⟩
  · exact inv
  · refine updateMap (inv.of_sames (.ftable s ftable)) (.inl ?_)
    simp only [newMap, MMAP_VSTART]
    omega

/-- The loop of `sys_munmap`. -/
theorem munmapLoop {map : MapInfo} {vpageBase stop : Nat} (inv : s.FrameInv)
    (used : (s.proc p).state ≠ .unused) (window : MMAP_VSTART ≤ vpageBase)
    (aligned : vpageBase % PGSIZE = 0)
    (ran : (pagesBetween vpageBase stop).foldlM (Machine.munmapPage p map vpageBase) s = .ok s') :
    s'.FrameInv := by
  refine (foldlM_rule (fun rounds t => (∀ va ∈ rounds, MMAP_VSTART ≤ va ∧ va % PGSIZE = 0) ∧
    (t.proc p).state ≠ .unused ∧ t.FrameInv) ?_ ⟨fun va listed => ?_, used, inv⟩ ran).2.2
  · rintro va rounds t next ⟨inside, usedT, invT⟩ ran
    obtain ⟨low, page⟩ := inside va List.mem_cons_self
    refine ⟨fun va' later => inside va' (List.mem_cons_of_mem va later), ?_,
      invT.munmapPage usedT low page ran⟩
    rwa [(munmapPage_kept ran).state]
  · obtain ⟨low, _, page⟩ := Uvm.mem_pagesBetween listed
    exact ⟨le_trans window low, page.trans aligned⟩

theorem pgRoundDown_window {addr : Nat} (low : MMAP_VSTART ≤ addr) :
    MMAP_VSTART ≤ pgRoundDown addr ∧ pgRoundDown addr % PGSIZE = 0 := by
  unfold pgRoundDown
  simp only [MMAP_VSTART, PGSIZE] at low ⊢
  omega

theorem sysMunmap {addr : Nat} {length : BitVec 32} {done : Bool} (inv : s.FrameInv)
    (used : (s.proc p).state ≠ .unused)
    (ran : s.sysMunmap p addr length = .ok (done, s')) : s'.FrameInv := by
  rcases sysMunmap_cases ran with ⟨_, rfl⟩ | ⟨i, looped, _, low, sel, isUsed, loop, cases⟩
  · exact inv
  obtain ⟨window, aligned⟩ := pgRoundDown_window low
  have invL := inv.munmapLoop used window aligned loop
  have kept := foldlM_invariant (Kept s) (fun _ _ _ kept ran => kept.trans (munmapPage_kept ran))
    (.refl s) loop
  have above : 2 ^ 36 ≤ ((looped.proc p).minfo i).vstart := by
    rw [kept.minfo]
    rcases inv.maps p i with above | ⟨unused, _⟩
    · exact above
    · rw [isUsed] at unused
      cases unused
  rcases cases with ⟨_, _, f, ftable, _, _, rfl⟩ | ⟨_, rfl⟩
  · exact updateMap (invL.of_sames (.ftable looped ftable)) (.inl above)
  · refine invL.updateMap (.inl ?_)
    have high : addr ≤ MMAP_VEND := by
      have := mapSel_lt sel
      unfold pgRoundDown at this
      simp only [PGSIZE, MMAP_VEND, MMAP_VSTART, MMAP_NUM, MMAP_SIZE] at this ⊢
      omega
    have stop := (munmapStop_bounds length low high).1
    simp only [cutMap]
    split
    · exact stop
    · exact above

theorem copyOut {dstva : Nat} {src : List UInt8} {done : Bool} (inv : s.FrameInv)
    (used : (s.proc p).state ≠ .unused) (ran : s.copyOut p dstva src = (done, s')) :
    s'.FrameInv := by
  obtain ⟨⟨copied, u⟩, copy⟩ : ∃ result, (s.uvm p).copyout dstva src = result := ⟨_, rfl⟩
  unfold Machine.copyOut at ran
  rw [copy] at ran
  cases ran
  have writes := Uvm.copyout_writes (inv.owns used) copy
  refine inv.table used writes.owns ?_
  rw [writes.table]
  exact inv.pages p used

/-- A process gets another page table of its own, and another size. -/
theorem resize (inv : s.FrameInv) (used : (s.proc p).state ≠ .unused) {u : Uvm} {sz : Nat}
    (owns : u.Owns (s.restFrames p)) (pages : UserPages sz u.pagetable) (top : TopPages) :
    (({ s with kmem := u.kmem } : Machine).updateProc p fun proc =>
      { proc with pagetable := u.pagetable, top := top, sz := sz }).FrameInv := by
  have own : (({ s with kmem := u.kmem } : Machine).updateProc p fun proc =>
      { proc with pagetable := u.pagetable, top := top, sz := sz }).proc p =
      { s.proc p with pagetable := u.pagetable, top := top, sz := sz } := Function.update_self ..
  apply inv.update (p := p)
  · exact fun q apart => sameMemory_updateProc s u.kmem _ q apart
  · unfold uvm
    rw [own]
    exact owns
  · rw [own]
    exact (inv.owned.owns used).2
  · rw [own]
    exact used
  · rw [own]
    exact pages
  · intro q i
    rw [(Resized.updateProc s p u.kmem u.pagetable top sz).proc q]
    exact inv.maps q i

theorem growproc {n : BitVec 32} {done : Bool} (inv : s.FrameInv)
    (used : (s.proc p).state ≠ .unused) (ran : s.growproc p n = .ok (done, s')) :
    s'.FrameInv := by
  have owns := inv.owns used
  have pages := inv.pages p used
  have bound := pages.sz_le owns
  have fits : ∀ sz, sz ≤ 2 ^ 27 → sz % 2 ^ 32 = sz := fun sz small =>
    Nat.mod_eq_of_lt (by omega)
  have resize : ∀ {u : Uvm} {sz : Nat}, u.Owns (s.restFrames p) → UserPages sz u.pagetable →
      ((s.withUvm p u).updateProc p fun proc => { proc with sz := sz % 2 ^ 32 }).FrameInv := by
    intro u sz ownsU pagesU
    have same : (s.withUvm p u).updateProc p (fun proc => { proc with sz := sz % 2 ^ 32 }) =
        ({ s with kmem := u.kmem } : Machine).updateProc p fun proc =>
          { proc with pagetable := u.pagetable, top := (s.proc p).top, sz := sz } := by
      rw [fits sz (pagesU.sz_le ownsU)]
      simp [Machine.withUvm, Machine.updateProc]
    rw [same]
    exact inv.resize used ownsU pagesU _
  rcases growproc_cases ran with ⟨sz, u, alloc, result⟩ | ⟨sz, u, dealloc, rfl⟩ | rfl
  · rw [fits _ bound] at alloc
    have small : ((s.proc p).sz + n.toNat) % 2 ^ 32 < 2 ^ 64 :=
      lt_of_lt_of_le (Nat.mod_lt _ (by decide)) (by decide)
    obtain ⟨ownsU, _, sized⟩ := Uvm.uvmalloc_spec owns small alloc
    have pagesU := UserPages.uvmalloc (u := s.uvm p) pages owns small alloc
    rcases result with ⟨zero, rfl⟩ | ⟨positive, rfl⟩
    · refine inv.table used ownsU ?_
      rcases pagesU with pagesU | ⟨_, pagesU⟩
      · rw [fits sz (pagesU.sz_le ownsU)] at zero
        rcases sized with ⟨_, same⟩ | ⟨less, equal, _⟩
        · exact pages.congr same
        · have empty : (s.proc p).sz = sz := by omega
          rw [empty]
          exact pagesU
      · exact pagesU
    · rcases pagesU with pagesU | ⟨rfl, _⟩
      · exact resize ownsU pagesU
      · exact absurd rfl positive
  · rw [fits _ bound] at dealloc
    obtain ⟨pagesU, shrinks⟩ := UserPages.uvmdealloc (u := s.uvm p) pages owns dealloc
    exact resize shrinks.owns pagesU
  · have same := inv.resize (u := s.uvm p) used owns pages (s.proc p).top
    rw [fits _ bound]
    exact same

/-- An empty page table in a new frame. -/
theorem newTable {m m' : Kmem} {root : Frame} {owned : Set Frame} (keeps : m.Keeps owned)
    (alloc : m.kalloc = some (root, m')) :
    (⟨m'.setPage root fun _ => 0, ⟨root, ∅, ∅⟩⟩ : Uvm).Owns owned ∧
      Set.EqOn (m'.setPage root fun _ => 0).mem m.mem owned := by
  obtain ⟨fresh, taken, mem⟩ := keeps.kalloc alloc
  have only : ∀ {place f}, (⟨root, ∅, ∅⟩ : PageTable).frameAt place = some f →
      place = .root ∧ f = root := by
    intro place f found
    cases place with
    | root => exact ⟨rfl, (Option.some.inj found).symm⟩
    | table level index => simp [PageTable.frameAt] at found
    | leaf vpn => simp [PageTable.frameAt] at found
  refine ⟨⟨(taken.setPage fun _ => 0).mono ?_, ?_, ?_⟩, ?_⟩
  · rintro f (⟨place, found⟩ | others)
    · rw [(only found).2]
      exact Set.mem_insert root owned
    · exact Set.mem_insert_of_mem root others
  · intro place place' f found found'
    rw [(only found).1, (only found').1]
  · rintro f ⟨place, found⟩ others
    rw [(only found).2] at others
    exact fresh others
  · intro f inside
    have apart : f ≠ root := by
      rintro rfl
      exact fresh inside
    simpa [Kmem.setPage, Function.update_of_ne apart] using mem inside

/-- A new table has no user pages, and its root and other pages are new. -/
theorem procPagetable_owns {m : Kmem} {tf : Frame} {u : Uvm} {top : TopPages} {owned : Set Frame}
    (keeps : m.Keeps owned) (ran : procPagetable m tf = .ok (u, top)) :
    u.Owns owned ∧ u.pagetable.leaves = ∅ ∧ Set.EqOn u.kmem.mem m.mem owned := by
  obtain ⟨start, created, ran⟩ := bind_ok.mp ran
  obtain ⟨⟨trampoline, u₁⟩, first, ran⟩ := bind_ok.mp ran
  obtain ⟨⟨found, u₂⟩, second, ran⟩ := bind_ok.mp ran
  cases ran
  unfold Uvm.uvmcreate at created
  split at created
  · cases created
  next root m' alloc =>
  cases created
  obtain ⟨owns, mem⟩ := newTable keeps alloc
  have grows := (Uvm.walkAlloc_grows owns first).trans
    (Uvm.walkAlloc_grows (Uvm.walkAlloc_grows owns first).owns second)
  exact ⟨grows.owns, grows.leaves, (grows.mem.mono Set.subset_union_right).trans mem⟩

/-- While `exec` builds the new page table, it owns its frames beside those of all
processes. -/
theorem buildImage_owns {ip : Inode} {elf : Page} {argv : List (List UInt8)} {built : Bool}
    {sz : Nat} {u u' : Uvm} {top : TopPages} {tf : Frame} (inv : s.FrameInv)
    (used : (s.proc p).state ≠ .unused) (create : procPagetable s.kmem tf = .ok (u, top))
    (build : u.buildImage ip elf argv = .ok (built, sz, u')) :
    u'.Owns ((s.uvm p).pagetable.frames ∪ s.restFrames p) ∧
      Set.EqOn u'.kmem.mem s.kmem.mem ((s.uvm p).pagetable.frames ∪ s.restFrames p) ∧
      (⟨u'.kmem, (s.proc p).pagetable⟩ : Uvm).Owns (u'.pagetable.frames ∪ s.restFrames p) ∧
      (built = true → UserPages sz u'.pagetable) := by
  have ownsP := inv.owns used
  obtain ⟨created, empty, fresh⟩ := procPagetable_owns ownsP.keeps create
  obtain ⟨owns, mem, pages⟩ := Uvm.buildImage_spec created empty build
  refine ⟨owns, mem.trans fresh, ⟨owns.keeps.mono ?_, ownsP.distinct, ?_⟩, pages⟩
  · rintro f (own | new | others)
    · exact .inr (.inl own)
    · exact .inl new
    · exact .inr (.inr others)
  · rintro f own (new | others)
    · exact owns.apart f new (.inl own)
    · exact ownsP.apart f own others

theorem exec {ip : Inode} {argv : List (List UInt8)} {done : Bool} (inv : s.FrameInv)
    (used : (s.proc p).state ≠ .unused) (ran : s.exec p ip argv = .ok (done, s')) :
    s'.FrameInv := by
  rcases exec_cases ran with rfl | ⟨u, top, elf, built, sz, u', create, build, result⟩
  · exact inv
  have ownsP := inv.owns used
  obtain ⟨owns, _, old, pages⟩ := inv.buildImage_owns used create build
  rcases result with ⟨_, m', free, rfl⟩ | ⟨isBuilt, commit⟩
  · have keeps := (TopPages.procFreepagetable_keeps owns free).1
    have same := inv.resize (u := ⟨m', (s.proc p).pagetable⟩) used
      ⟨keeps, ownsP.distinct, ownsP.apart⟩ (inv.pages p used) (s.proc p).top
    simpa [Machine.updateProc] using same
  · obtain ⟨m', free, rfl⟩ := execCommit_cases commit
    have keeps := (TopPages.procFreepagetable_keeps old free).1
    have apart : ∀ f ∈ u'.pagetable.frames, f ∉ s.restFrames p := fun f new others =>
      owns.apart f new (.inr others)
    exact inv.resize (u := ⟨m', u'.pagetable⟩) used ⟨keeps, owns.distinct, apart⟩ (pages isBuilt) top

/-- Only the state of a process, and what is not about memory, changes. -/
theorem restate (inv : s.FrameInv) (used : (s.proc p).state ≠ .unused) {ftable : Ftable}
    {change : Proc → Proc} (memory : ∀ proc, (change proc).sz = proc.sz ∧
      (change proc).pagetable = proc.pagetable ∧ (change proc).tf = proc.tf ∧
      (change proc).minfo = proc.minfo ∧ (change proc).state ≠ .unused) :
    (({ s with ftable := ftable } : Machine).updateProc p change).FrameInv := by
  have own : (({ s with ftable := ftable } : Machine).updateProc p change).proc p =
      change (s.proc p) := Function.update_self ..
  obtain ⟨sz, pagetable, tf, minfo, state⟩ := memory (s.proc p)
  apply inv.update (p := p)
  · intro q apart
    rw [show (({ s with ftable := ftable } : Machine).updateProc p change).proc q = s.proc q from
      Function.update_of_ne apart ..]
    exact .refl _
  · unfold uvm
    rw [own, pagetable, tf]
    exact inv.owns used
  · rw [own, tf]
    exact (inv.owned.owns used).2
  · rw [own]
    exact state
  · rw [own, sz, pagetable]
    exact inv.pages p used
  · intro q i
    by_cases same : q = p
    · subst same
      rw [own, minfo]
      exact inv.maps q i
    · rw [show (({ s with ftable := ftable } : Machine).updateProc p change).proc q = s.proc q from
        Function.update_of_ne same ..]
      exact inv.maps q i

/-- `mmap_dedup` of a mapping that was live. -/
theorem mmapDedup {map : MapInfo} {u : Uvm} (inv : s.FrameInv) (used : (s.proc p).state ≠ .unused)
    (high : 2 ^ 36 ≤ map.vstart) (ran : (s.uvm p).mmapDedup map = .ok u) :
    (s.withUvm p u).FrameInv := by
  obtain ⟨shrinks, fewer, below⟩ := Uvm.mmapDedup_shrinks (inv.owns used) ran
  have bound := (inv.pages p used).sz_le (inv.owns used)
  refine inv.table used shrinks.owns ((inv.pages p used).remove fewer fun vpn heap => below vpn ?_)
  simp only [PGSIZE] at heap ⊢
  omega

theorem exitMaps (inv : s.FrameInv) (used : (s.proc p).state ≠ .unused)
    (ran : s.exitMaps p = .ok s') : s'.FrameInv ∧ (s'.proc p).state = (s.proc p).state := by
  refine foldlM_invariant (fun t => t.FrameInv ∧ (t.proc p).state = (s.proc p).state) ?_
    ⟨inv, rfl⟩ ran
  rintro i t next ⟨invT, stateT⟩ ran
  split at ran
  · next isUsed =>
    rw [bind_ok] at ran
    obtain ⟨u, dedup, ran⟩ := ran
    cases ran
    have high : 2 ^ 36 ≤ ((t.proc p).minfo i).vstart := by
      rcases invT.maps p i with high | ⟨unused, _⟩
      · exact high
      · rw [isUsed] at unused
        cases unused
    have state : ((t.updateMap p i fun map => { map with used := false }).proc p).state =
        (s.proc p).state := by
      simp [Machine.updateMap, updateProc, stateT]
    refine ⟨mmapDedup (invT.updateMap (.inl high)) (by rwa [state]) ?_ dedup, ?_⟩
    · simpa [Machine.updateMap, updateProc] using high
    · rw [(Kept.withUvm _ p u).state]
      exact state
  · cases ran
    exact ⟨invT, stateT⟩

theorem exit (inv : s.FrameInv) (used : (s.proc p).state ≠ .unused)
    (ran : s.exit p = .ok s') : s'.FrameInv := by
  obtain ⟨-, shut, looped, files, maps, rfl⟩ := exit_cases ran
  have same := exitFiles_same files
  have usedS : (shut.proc p).state ≠ .unused := by rwa [(same.procs p).state]
  obtain ⟨invL, stateL⟩ := (inv.of_sames same).exitMaps usedS maps
  exact invL.restate (by rwa [stateL]) fun proc => ⟨rfl, rfl, rfl, rfl, by simp⟩

/-- `freeproc` gives the frames of a process back. -/
theorem freeproc (inv : s.FrameInv) (used : (s.proc p).state ≠ .unused)
    (ran : s.freeproc p = .ok s') : s'.FrameInv := by
  obtain ⟨m, free, rfl⟩ := freeproc_cases ran
  obtain ⟨owns, fresh⟩ := inv.owned.owns used
  have keeps := (TopPages.procFreepagetable_keeps (owns.kfree fresh).1 free).1
  apply inv.release (p := p)
  · exact fun q apart => sameMemory_updateProc s m _ q apart
  · simp [updateProc]
  · simp [updateProc]
  · exact keeps
  · intro q i
    by_cases same : q = p
    · subst same
      simpa [updateProc] using inv.maps q i
    · simpa [updateProc, same] using inv.maps q i

end FrameInv

end Machine

namespace Machine

variable {s s' : Machine} {p np : Fin NPROC}

/-- The entries of `minfo` after the loop of `fork` has got to those of `rest`. -/
private def mapsMidway (parent child : Proc) (rest : List (Fin MMAP_NUM)) (i : Fin MMAP_NUM) :
    MapInfo :=
  if i ∉ rest ∧ (parent.minfo i).used = true then parent.minfo i else child.minfo i

/-- The loop of `fork` over the mappings copies the live ones and counts no page. -/
theorem forkMaps_spec (apart : p ≠ np) (maps : ∀ q i, ((s.proc q).minfo i).High)
    (low : ∀ vpn, ((s.proc np).pagetable.leaves.lookup vpn).isSome → vpn * PGSIZE < 2 ^ 36)
    (ran : s.forkMaps p np = .ok s') :
    s' = s.updateProc np fun child => { child with
      minfo := fun i => if ((s.proc p).minfo i).used = true then (s.proc p).minfo i
        else child.minfo i } := by
  have loop := foldlM_rule (fun rest (t : Machine) => rest.Nodup ∧
      t = s.updateProc np fun child => { child with minfo := mapsMidway (s.proc p) child rest })
    ?_ ?_ ran
  · have done : ∀ child : Proc, mapsMidway (s.proc p) child [] = fun i =>
        if ((s.proc p).minfo i).used = true then (s.proc p).minfo i else child.minfo i := by
      intro child
      funext i
      simp [mapsMidway]
    rw [loop.2]
    simp only [done]
  · rintro i rest t next ⟨nodup, rfl⟩ ran
    obtain ⟨fresh, nodup⟩ := List.nodup_cons.mp nodup
    have parent : ((s.updateProc np fun child =>
        { child with minfo := mapsMidway (s.proc p) child (i :: rest) }).proc p) = s.proc p :=
      Function.update_of_ne apart ..
    have step : ∀ child : Proc, ((s.proc p).minfo i).used = true →
        Function.update (mapsMidway (s.proc p) child (i :: rest)) i ((s.proc p).minfo i) =
          mapsMidway (s.proc p) child rest := by
      intro child used
      funext j
      by_cases same : j = i
      · subst same
        simp [mapsMidway, fresh, used]
      · simp [mapsMidway, same]
    refine ⟨nodup, ?_⟩
    rw [parent] at ran
    split at ran
    · next used =>
      rw [bind_ok] at ran
      obtain ⟨u, dup, ran⟩ := ran
      cases ran
      obtain ⟨copied, isCopied⟩ : ∃ t, t = (s.updateProc np fun child =>
        { child with minfo := mapsMidway (s.proc p) child (i :: rest) }).updateMap np i
          fun _ => (s.proc p).minfo i := ⟨_, rfl⟩
      have result : copied = s.updateProc np fun child =>
          { child with minfo := mapsMidway (s.proc p) child rest } := by
        rw [isCopied]
        simp [updateMap, updateProc, step _ used]
      rw [← isCopied, result] at dup ⊢
      have high : (mapsMidway (s.proc p) (s.proc np) rest 0).High := by
        unfold mapsMidway
        split
        · exact maps p 0
        · exact maps np 0
      have same : u = (s.updateProc np fun child =>
          { child with minfo := mapsMidway (s.proc p) child rest }).uvm np := by
        refine Uvm.mmapDup_none (fun va above below => ?_) dup
        simp only [updateProc, Function.update_self] at above below
        rcases high with high | ⟨_, zero⟩
        · by_contra found
          have present : ((s.proc np).pagetable.leaves.lookup (va / PGSIZE)).isSome := by
            simpa [uvm, updateProc, PageTable.lookup, ← Option.isSome_iff_ne_none] using found
          have bound := low _ present
          simp only [PGSIZE] at bound
          omega
        · omega
      rw [same]
      simp [withUvm, uvm, updateProc]
    · next unused =>
      cases ran
      congr 1
      funext child
      congr 1
      funext j
      by_cases same : j = i
      · subst same
        simp [mapsMidway, unused]
      · simp [mapsMidway, same]
  · refine ⟨List.nodup_finRange _, ?_⟩
    have same : ∀ child : Proc, mapsMidway (s.proc p) child (List.finRange MMAP_NUM) = child.minfo := by
      intro child
      funext i
      simp [mapsMidway]
    simp [same, updateProc]

/-- What a successful `fork` does to memory: the child gets copies of the pages below the
size, in frames that nobody had, and the live mappings of the parent without pages. -/
structure Forked (s : Machine) (p np : Fin NPROC) (u : Uvm) (tf : Frame) (s' : Machine) :
    Prop where
  fresh : (s.proc np).state = .unused
  newTf : tf ∉ s.frames
  owns : u.Owns (insert tf s.frames)
  mem : Set.EqOn u.kmem.mem s.kmem.mem s.frames
  copies : u.CopyOf (s.proc p).pagetable (((s.proc p).sz + PGSIZE - 1) / PGSIZE)
  kmem : s'.kmem = u.kmem
  others : ∀ q, q ≠ np → s'.proc q = s.proc q
  pagetable : (s'.proc np).pagetable = u.pagetable
  own : (s'.proc np).tf = tf ∧ (s'.proc np).sz = (s.proc p).sz ∧ (s'.proc np).state = .running
  maps : (s'.proc np).minfo = fun i =>
    if ((s.proc p).minfo i).used = true then (s.proc p).minfo i else (s.proc np).minfo i
  inode : ∀ ip, (s'.ftable.inode ip).size = (s.ftable.inode ip).size ∧
    (s'.ftable.inode ip).data = (s.ftable.inode ip).data

/-- The memory of the child before its pages are copied. -/
theorem allocproc_owns {alloc : Machine} (inv : s.FrameInv)
    (found : s.allocproc = .ok (some (np, alloc))) :
    ∃ tf top, (s.proc np).state = .unused ∧ tf ∉ s.frames ∧
      (alloc.uvm np).Owns (insert tf s.frames) ∧ (alloc.uvm np).pagetable.leaves = ∅ ∧
      Set.EqOn alloc.kmem.mem s.kmem.mem s.frames ∧ alloc.ftable = s.ftable ∧
      alloc.proc = Function.update s.proc np { s.proc np with
        tf := tf, pagetable := (alloc.uvm np).pagetable, top := top } := by
  obtain ⟨unused, tf, m, u, top, first, created, rfl⟩ := allocproc_cases found
  have keeps : s.kmem.Keeps s.frames := inv.owned.keeps
  obtain ⟨fresh, taken, mem⟩ := keeps.kalloc first
  obtain ⟨owns, empty, mem'⟩ := FrameInv.procPagetable_owns taken created
  have table : (({ s with kmem := u.kmem } : Machine).updateProc np fun proc =>
      { proc with tf := tf, pagetable := u.pagetable, top := top }).uvm np = u := by
    simp [uvm, updateProc]
  rw [table]
  exact ⟨tf, top, unused, fresh, owns, empty, (mem'.mono (Set.subset_insert tf _)).trans mem, rfl,
    rfl⟩

theorem table_subset (used : (s.proc p).state ≠ .unused) :
    (s.proc p).pagetable.frames ⊆ s.frames := by
  rintro f ⟨place, found⟩
  exact ⟨.table p place, (if_neg used).trans found⟩

theorem othersFrames_subset : s.othersFrames p ⊆ s.frames := by
  rintro f ⟨o, _, found⟩
  exact ⟨o, found⟩

/-- The loop of `fork` over the open files leaves the content of inodes. -/
private theorem forkFiles_inode (ran : s.forkFiles p np = .ok s') :
    s'.ftable.inode = s.ftable.inode := by
  refine foldlM_invariant (fun t => t.ftable.inode = s.ftable.inode) ?_ rfl ran
  intro fd t next same ran
  split at ran
  · cases ran
    exact same
  · rw [bind_ok] at ran
    obtain ⟨ftable, dup, ran⟩ := ran
    cases ran
    obtain ⟨_, rfl⟩ := Ftable.filedup_cases dup
    exact same

/-- The loop of `fork` over the open files changes one process. -/
private theorem forkFiles_others (ran : s.forkFiles p np = .ok s') :
    ∃ ofile, s'.proc = Function.update s.proc np { s.proc np with ofile := ofile } := by
  refine foldlM_invariant (fun t => ∃ ofile, t.proc = Function.update s.proc np
    { s.proc np with ofile := ofile }) ?_ ⟨(s.proc np).ofile, by simp⟩ ran
  rintro fd t next ⟨ofile, procs⟩ ran
  split at ran
  · cases ran
    exact ⟨ofile, procs⟩
  · rw [bind_ok] at ran
    obtain ⟨ftable, _, ran⟩ := ran
    cases ran
    exact ⟨_, by simp only [updateProc, procs, Function.update_self, Function.update_idem]; rfl⟩

theorem fork_forked (inv : s.FrameInv) (active : s.Active p)
    (ran : s.fork p = .ok (some np, s')) : ∃ u tf, s.Forked p np u tf s' := by
  obtain ⟨alloc, u, files, looped, found, copy, openFiles, mappings, rfl⟩ := fork_cases ran
  obtain ⟨tf, top, unused, newTf, owns, empty, mem, ftable, procs⟩ := allocproc_owns inv found
  have used : (s.proc p).state ≠ .unused := by
    rw [active.1]
    simp
  have apart : p ≠ np := by
    rintro rfl
    exact used unused
  have parent : alloc.proc p = s.proc p := by
    rw [procs, Function.update_of_ne apart]
  rw [parent] at copy
  have start : (alloc.uvm np).CopyOf (s.proc p).pagetable 0 := by
    refine ⟨fun vpn below => absurd below (Nat.not_lt_zero vpn), fun vpn _ => ?_⟩
    simp [Uvm.leafAt, empty]
  obtain ⟨ownsU, memU, copies⟩ := Uvm.copyPages_spec
    ((table_subset used).trans (Set.subset_insert tf _)) owns start copy
  rw [if_pos rfl, Nat.zero_add] at copies
  refine ⟨u, tf, ?_⟩
  -- the state in which the loops start
  obtain ⟨sized, isSized⟩ : ∃ t, t = (alloc.withUvm np u).updateProc np fun proc =>
    { proc with sz := ((alloc.withUvm np u).proc p).sz } := ⟨_, rfl⟩
  have parentU : (alloc.withUvm np u).proc p = s.proc p := by
    rw [← parent]
    exact Function.update_of_ne apart ..
  have sizedProc : sized.proc = Function.update s.proc np { s.proc np with
      tf := tf, pagetable := u.pagetable, top := top, sz := (s.proc p).sz } := by
    rw [isSized, parentU]
    simp [withUvm, updateProc, procs]
  rw [← isSized] at openFiles
  obtain ⟨ofile, filesProc⟩ := forkFiles_others openFiles
  rw [sizedProc, Function.update_self, Function.update_idem] at filesProc
  have filesKmem : files.kmem = u.kmem := by
    rw [(forkFiles_same openFiles).kmem, isSized]
    rfl
  have bound := (inv.pages p used).sz_le (inv.owns used)
  have filesMaps : ∀ q i, ((files.proc q).minfo i).High := by
    intro q i
    by_cases same : q = np
    · subst same
      rw [filesProc, Function.update_self]
      exact inv.maps q i
    · rw [filesProc, Function.update_of_ne same]
      exact inv.maps q i
  have low : ∀ vpn, ((files.proc np).pagetable.leaves.lookup vpn).isSome → vpn * PGSIZE < 2 ^ 36 := by
    intro vpn present
    rw [filesProc, Function.update_self] at present
    by_contra above
    have none := copies.others vpn (by simp only [PGSIZE] at above ⊢; omega)
    rw [Uvm.leafAt] at none
    rw [none] at present
    cases present
  rw [forkMaps_spec apart filesMaps low mappings]
  have parentF : files.proc p = s.proc p := by
    rw [filesProc, Function.update_of_ne apart]
  have childF : files.proc np = { s.proc np with
      tf := tf, pagetable := u.pagetable, top := top, sz := (s.proc p).sz
      ofile := ofile } := by
    rw [filesProc, Function.update_self]
  constructor
  · exact unused
  · exact newTf
  · exact ownsU
  · exact (memU.mono (Set.subset_insert tf _)).trans mem
  · exact copies
  · simp [updateProc, filesKmem]
  · intro q other
    simp [updateProc, filesProc, other]
  · simp [updateProc, childF]
  · simp [updateProc, childF]
  · simp [updateProc, childF, parentF]
  · have inodes : files.ftable.inode = s.ftable.inode := by
      rw [forkFiles_inode openFiles, isSized, ← ftable]
      rfl
    intro ip
    rw [← inodes]
    by_cases same : ip = (files.proc p).cwd
    · subst same
      simp [updateProc, Ftable.idup, Ftable.updateInode, apart]
    · simp [updateProc, Ftable.idup, Ftable.updateInode, apart, same]

namespace FrameInv

/-- A successful `fork`. -/
theorem fork (inv : s.FrameInv) (active : s.Active p)
    (ran : s.fork p = .ok (some np, s')) : s'.FrameInv := by
  obtain ⟨u, tf, forked⟩ := fork_forked inv active ran
  have used : (s.proc p).state ≠ .unused := by
    rw [active.1]
    simp
  have pages := inv.pages p used
  apply inv.update (p := np)
  · intro q other
    rw [forked.others q other]
    exact .refl _
  · have child : s'.uvm np = u := by
      simp [uvm, forked.kmem, forked.pagetable]
    rw [child, forked.own.1]
    exact forked.owns.mono (Set.insert_subset_insert othersFrames_subset)
  · rw [forked.own.1]
    exact fun others => forked.newTf (othersFrames_subset others)
  · rw [forked.own.2.2]
    simp
  · rw [forked.own.2.1, forked.pagetable]
    constructor
    · intro vpn below
      obtain ⟨pte, found, rights⟩ := pages.heap vpn below
      obtain ⟨pte', pa, found', copy, _⟩ := forked.copies.copied vpn
        (by simp only [PGSIZE] at below ⊢; omega)
      rw [found] at found'
      cases found'
      exact ⟨_, copy, rights⟩
    · intro vpn pte found
      left
      by_contra above
      have none := forked.copies.others vpn (by simp only [PGSIZE] at above ⊢; omega)
      rw [Uvm.leafAt, found] at none
      cases none
  · intro q i
    by_cases same : q = np
    · subst same
      rw [forked.maps]
      dsimp only
      split
      · exact inv.maps p i
      · exact inv.maps q i
    · rw [forked.others q same]
      exact inv.maps q i

/-- A `fork` that creates no process. -/
theorem forkFails (inv : s.FrameInv) (active : s.Active p)
    (ran : s.fork p = .ok (none, s')) : s'.FrameInv := by
  rcases fork_none_cases ran with ⟨_, rfl⟩ | ⟨np, alloc, u, found, copy, freed⟩
  · exact inv
  obtain ⟨tf, top, unused, newTf, owns, empty, mem, ftable, procs⟩ := allocproc_owns inv found
  have used : (s.proc p).state ≠ .unused := by
    rw [active.1]
    simp
  have apart : p ≠ np := by
    rintro rfl
    exact used unused
  have parent : alloc.proc p = s.proc p := by
    rw [procs, Function.update_of_ne apart]
  rw [parent] at copy
  have start : (alloc.uvm np).CopyOf (s.proc p).pagetable 0 := by
    refine ⟨fun vpn below => absurd below (Nat.not_lt_zero vpn), fun vpn _ => ?_⟩
    simp [Uvm.leafAt, empty]
  obtain ⟨ownsU, _, _⟩ := Uvm.copyPages_spec
    ((table_subset used).trans (Set.subset_insert tf _)) owns start copy
  obtain ⟨m, free, rfl⟩ := freeproc_cases freed
  have child : (alloc.withUvm np u).proc np = { s.proc np with
      tf := tf, pagetable := u.pagetable, top := top } := by
    simp [withUvm, updateProc, procs]
  rw [child] at free
  have keeps := (TopPages.procFreepagetable_keeps (ownsU.kfree newTf).1 free).1
  apply inv.release (p := np)
  · intro q other
    have same : (({ alloc.withUvm np u with kmem := m } : Machine).updateProc np fun proc =>
        { proc with
          state := .unused, killed := false, sz := 0, pagetable := ⟨0, ∅, ∅⟩
          top := {} }).proc q = s.proc q := by
      simp [withUvm, updateProc, procs, other]
    rw [same]
    exact .refl _
  · simp [updateProc]
  · simp [updateProc]
  · exact keeps.mono othersFrames_subset
  · intro q i
    by_cases same : q = np
    · subst same
      simpa [withUvm, updateProc, procs] using inv.maps q i
    · simpa [withUvm, updateProc, procs, same] using inv.maps q i

theorem boot (start : s.Boot) : s.FrameInv where
  owned := start.frames
  pages p used := (start.pages p used).1
  unused := start.unused
  maps p i := by
    rw [start.notMapped]
    exact .inr ⟨rfl, rfl⟩

end FrameInv

end Machine

/-- Every step keeps the invariant of the memory. -/
theorem MmapStep.frameInv {s next : MmapSys} {act : MmapAct} (step : MmapStep s act next)
    (inv : s.machine.FrameInv) : next.machine.FrameInv := by
  have used : ∀ {p}, s.machine.Active p → (s.machine.proc p).state ≠ .unused := by
    intro p active
    rw [active.1]
    simp
  cases step with
  | openFile _ _ ran =>
      exact inv.of_sames ((Machine.SameMemories.ftable _ _).trans (Machine.openInode_same ran))
  | dup _ ran => exact inv.of_sames (Machine.sysDup_same ran)
  | close _ ran => exact inv.of_sames (Machine.sysClose_same ran)
  | write => exact inv.of_sames (.ftable _ _)
  | mmap _ _ ran => exact inv.sysMmap ran
  | mmapFails _ ran => exact inv.sysMmap ran
  | munmap active ran => exact inv.sysMunmap (used active) ran
  | access active ran => exact inv.access (used active) ran
  | copyOut active ran => exact inv.copyOut (used active) ran
  | sbrk active ran => exact inv.growproc (used active) ran
  | exec active ran => exact inv.exec (used active) ran
  | fork active ran => exact inv.fork active ran
  | forkFails active ran => exact inv.forkFails active ran
  | exit running ran => exact inv.exit (by rw [running]; simp) ran
  | reap zombie ran => exact inv.freeproc (by rw [zombie]; simp) ran

/-- In every state of every run the frames have one owner each. -/
theorem frameInv_of_reachable {s : MmapSys} (run : mmapSystem.Reachable s) : s.machine.FrameInv := by
  have inductive_ : mmapSystem.Inductive (fun _ _ => True) fun s => s.machine.FrameInv :=
    ⟨fun start => Machine.FrameInv.boot start, fun inv _ step => step.frameInv inv⟩
  exact run.invariant inductive_

end Riscv2os.Xv7
