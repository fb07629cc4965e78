import Riscv2os.Xv7.MmapFrames
import Riscv2os.Xv7.PageAccounts

/-!
# The frames of a new page table

`proc_pagetable` takes a frame for the root and two for the pages that lead to the trampoline and the trap
frame. With fewer it returns a table in which `proc_freepagetable` does not find them.
-/

namespace Riscv2os.Xv7

open Riscv2os.Std

namespace Uvm

variable {u u' : Uvm}

/-- A page of the table that is there. -/
theorem child_hit {level index : Nat} {f : Frame} (hit : u.pagetable.tables.lookup (level, index) = some f) :
    u.child level index = (true, u) := by
  unfold child
  rw [hit]

/-- A new page of the table, in the first free frame. -/
theorem child_new {level index : Nat} {f : Frame} {free : List Frame}
    (absent : u.pagetable.tables.lookup (level, index) = none) (list : u.kmem.freelist = f :: free) :
    ∃ u', u.child level index = (true, u') ∧ u'.kmem.freelist = free ∧
      u'.pagetable.tables = u.pagetable.tables.insert (level, index) f ∧
      u'.pagetable.leaves = u.pagetable.leaves := by
  unfold child Kmem.kalloc
  rw [absent, list]
  exact ⟨_, rfl, rfl, rfl, rfl⟩

theorem child_full {level index : Nat} (absent : u.pagetable.tables.lookup (level, index) = none)
    (empty : u.kmem.freelist = []) : u.child level index = (false, u) := by
  unfold child
  rw [absent, kalloc_none.mpr empty]

theorem walkAlloc_child {va : Nat} {result : Bool × Uvm} (low : va < MAXVA)
    (first : u.child 2 (va / 2 ^ 30) = (true, u')) (second : u'.child 1 (va / 2 ^ 21) = result) :
    u.walkAlloc va = .ok result := by
  rw [walkAlloc, if_neg (not_le.mpr low), first, ← second]
  rfl

theorem walkAlloc_full {va : Nat} (low : va < MAXVA) (first : u.child 2 (va / 2 ^ 30) = (false, u')) :
    u.walkAlloc va = .ok (false, u') := by
  rw [walkAlloc, if_neg (not_le.mpr low), first]
  rfl

end Uvm

section procPagetable

variable {m : Kmem} {tf : Frame} {u : Uvm} {top : TopPages}

/-- The root of a new table is a frame that was free. -/
theorem procPagetable_root (ran : procPagetable m tf = .ok (u, top)) :
    ∃ rest, m.freelist = u.pagetable.root :: rest := by
  obtain ⟨start, created, ran⟩ := bind_ok.mp ran
  obtain ⟨⟨trampoline, u₁⟩, first, ran⟩ := bind_ok.mp ran
  obtain ⟨⟨found, u₂⟩, second, ran⟩ := bind_ok.mp ran
  cases ran
  unfold Uvm.uvmcreate at created
  split at created
  · cases created
  next root m' alloc =>
  cases created
  refine ⟨m'.freelist, ?_⟩
  rw [(Uvm.walkAlloc_tables second).1, (Uvm.walkAlloc_tables first).1]
  exact Uvm.kalloc_freelist alloc

theorem procPagetable_pool {u : Uvm} {top : TopPages} (ran : procPagetable m tf = .ok (u, top)) :
    u.pool = {f | f ∈ m.freelist} := by
  obtain ⟨start, created, ran⟩ := bind_ok.mp ran
  obtain ⟨⟨trampoline, u₁⟩, first, ran⟩ := bind_ok.mp ran
  obtain ⟨⟨found, u₂⟩, second, ran⟩ := bind_ok.mp ran
  cases ran
  rw [Uvm.walkAlloc_pool second, Uvm.walkAlloc_pool first]
  unfold Uvm.uvmcreate at created
  split at created
  · cases created
  next root m' alloc =>
  cases created
  ext f
  have only : f ∈ (⟨root, ∅, ∅⟩ : PageTable).frames ↔ f = root := by
    constructor
    · rintro ⟨place, had⟩
      cases place with
      | root => exact (Option.some.inj had).symm
      | table level index => cases had
      | leaf vpn => cases had
    · rintro rfl
      exact ⟨.root, rfl⟩
  have list := Uvm.kalloc_freelist alloc
  simp only [Uvm.pool, Set.mem_union, Set.mem_ofPred_eq, only, list, List.mem_cons, Kmem.setPage]
  exact or_comm

/-- With frames for the root alone, or for the root and one page, the table does not lead to the trampoline. -/
theorem procPagetable_few (some : m.freelist ≠ []) (few : m.freelist.length < 3) :
    ∃ u top, procPagetable m tf = .ok (u, top) ∧ u.kmem.freelist = [] ∧ u.pagetable.leaves = ∅ ∧
      u.pagetable.reaches TRAMPOLINE = false := by
  obtain ⟨f₀, rest, list⟩ := List.exists_cons_of_ne_nil some
  obtain ⟨m', alloc, list'⟩ : ∃ m', m.kalloc = .some (f₀, m') ∧ m'.freelist = rest := by
    unfold Kmem.kalloc
    rw [list]
    exact ⟨_, rfl, rfl⟩
  have start : Uvm.uvmcreate m = .ok ⟨m'.setPage f₀ fun _ => 0, ⟨f₀, ∅, ∅⟩⟩ := by
    unfold Uvm.uvmcreate
    rw [alloc]
  have rootOnly : (⟨m'.setPage f₀ fun _ => 0, ⟨f₀, ∅, ∅⟩⟩ : Uvm).pagetable.tables.lookup (2, 255) = none := rfl
  cases rest with
  | nil =>
      have full := Uvm.child_full rootOnly list'
      have ran : procPagetable m tf = .ok (⟨m'.setPage f₀ fun _ => 0, ⟨f₀, ∅, ∅⟩⟩, ⟨false, none⟩) := by
        refine bind_ok.mpr ⟨_, start, bind_ok.mpr ⟨_, Uvm.walkAlloc_full (by decide) full, ?_⟩⟩
        exact bind_ok.mpr ⟨_, Uvm.walkAlloc_full (by decide) full, rfl⟩
      exact ⟨_, _, ran, list', rfl, rfl⟩
  | cons f₁ rest =>
      obtain rfl : rest = [] := by
        rw [list] at few
        exact List.eq_nil_of_length_eq_zero (by simp only [List.length_cons] at few; omega)
      obtain ⟨u₁, first, list₁, tables₁, leaves₁⟩ := Uvm.child_new rootOnly list'
      have tables₁ : u₁.pagetable.tables = AList.insert (2, 255) f₁ ∅ := tables₁
      have upper : u₁.pagetable.tables.lookup (2, 255) = .some f₁ := by
        rw [tables₁, AList.lookup_insert]
      have lower : u₁.pagetable.tables.lookup (1, 131071) = none := by
        rw [tables₁, AList.lookup_insert_ne (by decide)]
        rfl
      have full := Uvm.child_full lower list₁
      have ran : procPagetable m tf = .ok (u₁, ⟨false, none⟩) := by
        refine bind_ok.mpr ⟨_, start, bind_ok.mpr ⟨_, Uvm.walkAlloc_child (by decide) first full, ?_⟩⟩
        exact bind_ok.mpr ⟨_, Uvm.walkAlloc_child (by decide) (Uvm.child_hit upper) full, rfl⟩
      have reached : ((u₁.pagetable.tables.lookup (2, 255)).isSome &&
          (u₁.pagetable.tables.lookup (1, 131071)).isSome) = false := by
        rw [lower]
        exact Bool.and_false _
      exact ⟨u₁, _, ran, list₁, leaves₁, reached⟩

end procPagetable

end Riscv2os.Xv7
