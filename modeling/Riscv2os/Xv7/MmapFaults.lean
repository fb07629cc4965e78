import Riscv2os.Xv7.MmapCalls
import Riscv2os.Xv7.MunmapFrame

/-!
# Page faults in the window for mappings

What the page-fault branch of `usertrap` does with an address of the window. It looks at the entry that the
address selects and at the end of its range, but not at the start of the range, at the rights of the mapping or
at whether the page is there already.
-/

namespace Riscv2os.Xv7

open Riscv2os.Std

namespace Uvm

variable {u u' : Uvm} {va : Nat}

/-- How many pages `walk(pagetable, va, 1)` allocates. -/
def missing (u : Uvm) (va : Nat) : Nat :=
  (if u.pagetable.tables.lookup (2, va / 2 ^ 30) = none then 1 else 0) +
    if u.pagetable.tables.lookup (1, va / 2 ^ 21) = none then 1 else 0

/-- `child` finds a table, or allocates one if there is a page. -/
theorem child_found (u : Uvm) (level index : Nat) : (u.child level index).1 =
    decide ((if u.pagetable.tables.lookup (level, index) = none then 1 else 0) ≤ u.kmem.freelist.length) := by
  unfold child
  cases u.pagetable.tables.lookup (level, index) with
  | some pa => simp
  | none =>
      unfold Kmem.kalloc
      cases u.kmem.freelist with
      | nil => rfl
      | cons pa rest => simp

theorem child_leaves (u : Uvm) (level index : Nat) :
    (u.child level index).2.pagetable.leaves = u.pagetable.leaves := by
  unfold child
  cases u.pagetable.tables.lookup (level, index) with
  | some pa => rfl
  | none => cases u.kmem.kalloc <;> rfl

/-- What a table at one place takes from the others. -/
theorem child_others (u : Uvm) (level index : Nat) (found : (u.child level index).1 = true) :
    (u.child level index).2.kmem.freelist.length +
        (if u.pagetable.tables.lookup (level, index) = none then 1 else 0) = u.kmem.freelist.length ∧
      ∀ other, other ≠ (level, index) →
        (u.child level index).2.pagetable.tables.lookup other = u.pagetable.tables.lookup other := by
  unfold child at found ⊢
  cases there : u.pagetable.tables.lookup (level, index) with
  | some pa => simp
  | none =>
      simp only [there] at found
      unfold Kmem.kalloc at found ⊢
      cases free : u.kmem.freelist with
      | nil =>
          rw [free] at found
          cases found
      | cons pa rest => exact ⟨rfl, fun other apart => AList.lookup_insert_ne apart⟩

/-- `walk(pagetable, va, 1)` gets to the last level exactly if there are pages for what is missing. -/
theorem walkAlloc_eq (u : Uvm) (low : va < MAXVA) : ∃ u', u'.pagetable.leaves = u.pagetable.leaves ∧
    u.walkAlloc va = .ok (decide (u.missing va ≤ u.kmem.freelist.length), u') := by
  have first := u.child_found 2 (va / 2 ^ 30)
  have leaves := u.child_leaves 2 (va / 2 ^ 30)
  unfold walkAlloc missing
  rw [if_neg (by omega)]
  obtain ⟨⟨found, u₁⟩, ran⟩ : ∃ result, u.child 2 (va / 2 ^ 30) = result := ⟨_, rfl⟩
  simp only [ran] at first leaves ⊢
  cases found with
  | false =>
      have few := of_decide_eq_false first.symm
      refine ⟨u₁, leaves, ?_⟩
      simp only [Bool.false_eq_true, if_false, Except.ok.injEq, Prod.mk.injEq, and_true]
      exact (decide_eq_false (by omega)).symm
  | true =>
      have enough := of_decide_eq_true first.symm
      obtain ⟨length, others⟩ := u.child_others 2 (va / 2 ^ 30) (by rw [ran])
      simp only [ran] at length others
      have second := u₁.child_found 1 (va / 2 ^ 21)
      rw [others (1, va / 2 ^ 21) (by simp)] at second
      refine ⟨(u₁.child 1 (va / 2 ^ 21)).2, (u₁.child_leaves _ _).trans leaves, ?_⟩
      rw [if_pos rfl]
      refine congrArg Except.ok (Prod.ext (second.trans ?_) rfl)
      exact decide_eq_decide.mpr (by omega)

/-- `mappages` without the pages for its tables, for a page that is there, and for one that is not. -/
theorem mappages_few (pte : Pte) (low : va < MAXVA) (few : u.kmem.freelist.length < u.missing va) :
    ∃ u', u.mappages va pte = .ok (false, u') := by
  obtain ⟨u', -, walk⟩ := u.walkAlloc_eq low
  rw [decide_eq_false (by omega)] at walk
  exact ⟨u', bind_ok.mpr ⟨_, walk, rfl⟩⟩

theorem mappages_new (pte : Pte) (low : va < MAXVA) (enough : u.missing va ≤ u.kmem.freelist.length)
    (vacant : u.leafAt (va / PGSIZE) = none) : ∃ u', u.mappages va pte = .ok (true, u') := by
  obtain ⟨u', leaves, walk⟩ := u.walkAlloc_eq low
  rw [decide_eq_true enough] at walk
  have found : u'.pagetable.lookup va = none := by
    rw [PageTable.lookup, leaves]
    exact vacant
  unfold mappages
  rw [walk]
  simp only [bind, Except.bind, found, Bool.not_true, Bool.false_eq_true, if_false]
  exact ⟨_, rfl⟩

theorem missing_pgRoundDown (u : Uvm) (va : Nat) : u.missing (pgRoundDown va) = u.missing va := by
  unfold missing
  rw [show pgRoundDown va / 2 ^ 30 = va / 2 ^ 30 by unfold pgRoundDown; simp only [PGSIZE]; omega,
    show pgRoundDown va / 2 ^ 21 = va / 2 ^ 21 by unfold pgRoundDown; simp only [PGSIZE]; omega]

end Uvm

/-- The rights of a mapping allow an access. -/
def MapInfo.allows (map : MapInfo) : Access → Bool
  | .load => hasFlag map.prot PROT_READ
  | .store => hasFlag map.prot PROT_WRITE

/-- The hardware carries out an access under the entry that a fault installs. A store needs `PROT_READ` as well. -/
def MapInfo.grants (map : MapInfo) : Access → Bool
  | .load => hasFlag map.prot PROT_READ
  | .store => hasFlag map.prot PROT_READ && hasFlag map.prot PROT_WRITE

namespace Machine

variable {s t : Machine} {p : Fin NPROC} {va : Nat} {i : Fin MMAP_NUM} {f : Fin NFILE}

/-- The process is killed, and its user pages are as before. -/
structure Kills (s t : Machine) (p : Fin NPROC) : Prop where
  killed : (t.proc p).killed = true
  pages : ∀ vpn, (t.uvm p).leafAt vpn = (s.uvm p).leafAt vpn

/-- One page is installed for an address where there was none, with an entry under which the hardware carries out
the access, and the process goes on. -/
structure Installs (s t : Machine) (p : Fin NPROC) (va : Nat) (access : Access) : Prop where
  vacant : (s.uvm p).leafAt (va / PGSIZE) = none
  page : ∃ pte, pte.permits access = true ∧
    ∀ vpn, (t.uvm p).leafAt vpn = if vpn = va / PGSIZE then some pte else (s.uvm p).leafAt vpn
  goes : (t.proc p).killed = (s.proc p).killed

/-- The access that has trapped is carried out when it is made again. -/
theorem Installs.permitted {access : Access} (installs : s.Installs t p va access) :
    t.permitted p va access = true := by
  obtain ⟨pte, permits, leaves⟩ := installs.page
  have found : (t.proc p).pagetable.lookup va = some pte := by
    have here := leaves (va / PGSIZE)
    rw [if_pos rfl] at here
    exact here
  rw [Machine.permitted, found]
  exact permits

/-- A live mapping with the right for the access contains the address. -/
def Allowed (s : Machine) (p : Fin NPROC) (va : Nat) (access : Access) : Prop :=
  ∃ i, s.MapsAt p i va ∧ ((s.proc p).minfo i).allows access = true

/-- The inode of the file of a mapping is in use. -/
def Held (s : Machine) (p : Fin NPROC) (i : Fin MMAP_NUM) : Prop :=
  ∀ f, ((s.proc p).minfo i).file = some f → 1 ≤ (s.ftable.inode (s.ftable.file f).ip).ref

/-- There are too few free pages for a page and the tables above it. -/
def TooFew (s : Machine) (p : Fin NPROC) (va : Nat) : Prop :=
  s.kmem.freelist.length < 1 + (s.uvm p).missing va

theorem kill_kills (s : Machine) (p : Fin NPROC) : s.Kills (s.kill p) p where
  killed := by simp [kill, updateProc]
  pages vpn := by simp [kill, uvm, updateProc]

theorem filled_missing (s : Machine) (p : Fin NPROC) (va : Nat) (i : Fin MMAP_NUM) (f : Fin NFILE)
    (mem : Frame) (m : Kmem) : (s.filled p va i f mem m).missing (pgRoundDown va) = (s.uvm p).missing va := by
  rw [Uvm.missing_pgRoundDown]
  rfl

theorem filled_leaf (s : Machine) (p : Fin NPROC) (va : Nat) (i : Fin MMAP_NUM) (f : Fin NFILE)
    (mem : Frame) (m : Kmem) :
    (s.filled p va i f mem m).leafAt (pgRoundDown va / PGSIZE) = (s.uvm p).leafAt (va / PGSIZE) := by
  rw [Uvm.pgRoundDown_div]
  rfl

namespace Faults

variable {mem : Frame} {m : Kmem}

theorem low (faults : s.Faults p va i f mem m) : pgRoundDown va < MAXVA := by
  have high := faults.window.2
  unfold pgRoundDown
  simp only [MMAP_VEND, MMAP_VSTART, MMAP_NUM, MMAP_SIZE, PGSIZE, MAXVA] at high ⊢
  omega

/-- There are too few pages. -/
theorem few (faults : s.Faults p va i f mem m) (inv : s.FrameInv) (active : (s.proc p).state ≠ .unused)
    (few : m.freelist.length < (s.uvm p).missing va) :
    ∃ t, s.pageFault p va = .ok t ∧ s.Kills t p := by
  obtain ⟨u, mapping⟩ := Uvm.mappages_few (filePte ((s.proc p).minfo i) mem) faults.low
    (lt_of_lt_of_eq few (filled_missing s p va i f mem m).symm)
  obtain ⟨fresh, allocated, -⟩ := (inv.owns active).kalloc faults.free
  obtain ⟨-, -, leaves⟩ := Uvm.mappages_spec (allocated.setPage (f := mem) _) fresh mapping
  refine ⟨_, faults.pageFault.trans (bind_ok.mpr ⟨_, mapping, rfl⟩), ⟨?_, fun vpn => ?_⟩⟩
  · simp [kill, updateProc]
  · rw [(kill_kills _ p).pages, withUvm_uvm]
    exact congrArg (fun leaves => AList.lookup vpn leaves) leaves

/-- The page is missing. -/
theorem installs (faults : s.Faults p va i f mem m) (inv : s.FrameInv) (active : (s.proc p).state ≠ .unused)
    (enough : (s.uvm p).missing va ≤ m.freelist.length) (vacant : (s.uvm p).leafAt (va / PGSIZE) = none) :
    ∃ t, s.pageFault p va = .ok t ∧ (t.proc p).killed = (s.proc p).killed ∧
      (∀ vpn, (t.uvm p).leafAt vpn = if vpn = va / PGSIZE then some (filePte ((s.proc p).minfo i) mem)
        else (s.uvm p).leafAt vpn) ∧
      t.kmem.mem mem = s.filePage f ((s.proc p).minfo i) (pgRoundDown va) := by
  obtain ⟨u, mapping⟩ := Uvm.mappages_new (filePte ((s.proc p).minfo i) mem) faults.low
    ((filled_missing s p va i f mem m).trans_le enough) ((filled_leaf ..).trans vacant)
  obtain ⟨fresh, allocated, -⟩ := (inv.owns active).kalloc faults.free
  obtain ⟨mems, -, -, leaves⟩ := Uvm.mappages_spec (allocated.setPage (f := mem) _) fresh mapping
  rw [Uvm.pgRoundDown_div] at leaves
  have content : u.kmem.mem mem = s.filePage f ((s.proc p).minfo i) (pgRoundDown va) := by
    have same := mems (.inr (Set.mem_insert mem _))
    rw [same]
    exact Function.update_self ..
  refine ⟨_, faults.pageFault.trans (bind_ok.mpr ⟨_, mapping, rfl⟩), ?_, fun vpn => ?_, content⟩
  · simp [withUvm, updateProc]
  · rw [withUvm_uvm, leaves]
    rfl

end Faults

/-- The fault is one that the handler treats as it should. It selects no live mapping or is behind its end, or
there is no page for it; otherwise the inode of the file is in use, and there are too few pages for the tables,
or the page is missing, a live mapping with the right for the access contains the address, and the entry made for
the mapping that the address selects grants it. -/
def Handled (s : Machine) (p : Fin NPROC) (va : Nat) (access : Access) : Prop :=
  ∀ i, mapSel (pgRoundDown va) = .ok i →
    ((s.proc p).minfo i).used = false ∨ ((s.proc p).minfo i).vend ≤ va ∨ s.kmem.freelist = [] ∨
      s.Held p i ∧ (s.TooFew p va ∨ (s.uvm p).leafAt (va / PGSIZE) = none ∧ s.Allowed p va access ∧
        ((s.proc p).minfo i).grants access = true)

end Machine

end Riscv2os.Xv7
