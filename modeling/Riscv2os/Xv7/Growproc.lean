import Riscv2os.Xv7.Exec
import Riscv2os.Xv7.PageAccounts

/-!
# What `sbrk` does to the size of a process

The size passes through `uint`, where a sum below zero becomes a large one. `uvmdealloc` takes that for a
size that needs no work, and `growproc` reports success.
-/

namespace Riscv2os.Xv7

open Riscv2os.Std

namespace Uvm

variable {u u' : Uvm} {rest : Set Frame}

/-- What came back after pages were added was free before. -/
theorem Grew.free_subset {low : Nat} (grew : u.Grew rest low low u') :
    u'.kmem.freelist ⊆ u.kmem.freelist := by
  intro f free
  have inside : f ∈ u.pool := by
    rw [← grew.pool]
    exact .inl free
  rcases inside with old | ⟨place, had⟩
  · exact old
  · exact absurd free (grew.owns.not_free ⟨place, grew.frameAt had⟩)

end Uvm

namespace Machine

variable {s s' : Machine} {p : Fin NPROC} {n : BitVec 32} {rest : Set Frame}

/-- What `sbrk` promises of a call with `n` and its result: the new size is exact and all pages below it are
there, or nothing has changed. What was added can be given back. -/
structure Exact (s : Machine) (p : Fin NPROC) (n : BitVec 32) (done : Bool) (s' : Machine) : Prop where
  size : done = true → ((s'.proc p).sz : Int) = (s.proc p).sz + n.toInt ∧ (s'.proc p).sz < MMAP_VSTART
  pages : done = true → ∀ vpn, vpn * PGSIZE < MMAP_VSTART →
    (((s'.uvm p).leafAt vpn).isSome ↔ vpn * PGSIZE < (s'.proc p).sz)
  window : ∀ vpn, MMAP_VSTART ≤ vpn * PGSIZE → (s'.uvm p).leafAt vpn = (s.uvm p).leafAt vpn
  failed : done = false → (s'.proc p).sz = (s.proc p).sz ∧
    ∀ vpn, (s'.uvm p).leafAt vpn = (s.uvm p).leafAt vpn
  negated : done = true → 0 < n.toInt → ∃ s'', s'.growproc p (-n) = .ok (true, s'') ∧
    (s''.proc p).sz = (s.proc p).sz ∧ (s.uvm p).Restored (s''.uvm p) ∧ s''.kmem.freelist ⊆ s.kmem.freelist

@[simp] theorem uvm_withUvm (s : Machine) (p : Fin NPROC) (u : Uvm) : (s.withUvm p u).uvm p = u := by
  simp [uvm, withUvm, updateProc]

@[simp] theorem sz_withUvm (s : Machine) (p : Fin NPROC) (u : Uvm) :
    ((s.withUvm p u).proc p).sz = (s.proc p).sz := by
  simp [withUvm, updateProc]

/-- The process has size `sz`. -/
def withSize (s : Machine) (p : Fin NPROC) (sz : Nat) : Machine :=
  s.updateProc p fun proc => { proc with sz := sz }

@[simp] theorem uvm_withSize (s : Machine) (p : Fin NPROC) (sz : Nat) : (s.withSize p sz).uvm p = s.uvm p := by
  simp [uvm, withSize, updateProc]

@[simp] theorem sz_withSize (s : Machine) (p : Fin NPROC) (sz : Nat) : ((s.withSize p sz).proc p).sz = sz := by
  simp [withSize, updateProc]

/-- `growproc` with a positive `n`. -/
theorem growproc_positive {sz : Nat} {u : Uvm} (positive : 0 < n.toInt)
    (ran : (s.uvm p).uvmalloc ((s.proc p).sz % 2 ^ 32) (((s.proc p).sz % 2 ^ 32 + n.toNat) % 2 ^ 32) =
      .ok (sz, u)) :
    s.growproc p n = .ok (if sz % 2 ^ 32 = 0 then (false, s.withUvm p u)
      else (true, (s.withUvm p u).withSize p (sz % 2 ^ 32))) := by
  simp only [growproc, if_pos positive, ran, bind, Except.bind]
  split <;> rfl

/-- `growproc` with a negative `n`. -/
theorem growproc_negative {sz : Nat} {u : Uvm} (negative : n.toInt < 0)
    (ran : (s.uvm p).uvmdealloc ((s.proc p).sz % 2 ^ 32) (((s.proc p).sz % 2 ^ 32 + n.toNat) % 2 ^ 32) =
      .ok (sz, u)) :
    s.growproc p n = .ok (true, (s.withUvm p u).withSize p (sz % 2 ^ 32)) := by
  simp only [growproc, if_neg (not_lt.mpr negative.le), if_pos negative, ran, bind, Except.bind]
  rfl

/-- `growproc` with 0. -/
theorem growproc_zero (zero : n.toInt = 0) :
    s.growproc p n = .ok (true, s.withSize p ((s.proc p).sz % 2 ^ 32)) := by
  simp only [growproc, zero, lt_irrefl, if_false]
  rfl

/-- The user pages of a process up to the end of physical memory. -/
private theorem heap_iff {u : Uvm} {sz : Nat} (pages : UserPages sz u.pagetable) (vpn : Nat)
    (low : vpn * PGSIZE < MMAP_VSTART) : (u.leafAt vpn).isSome ↔ vpn * PGSIZE < sz := by
  constructor
  · intro some
    obtain ⟨pte, found⟩ := Option.isSome_iff_exists.mp some
    rcases pages.mapped found with below | window
    · exact below
    · omega
  · intro below
    obtain ⟨pte, found, _⟩ := pages.heap vpn below
    exact Option.isSome_iff_exists.mpr ⟨pte, found⟩

/-- Growing is exact. -/
theorem growproc_grows (owns : (s.uvm p).Owns rest) (pages : UserPages (s.proc p).sz (s.uvm p).pagetable)
    (positive : 0 < n.toInt) : ∃ done s', s.growproc p n = .ok (done, s') ∧ s.Exact p n done s' := by
  have bound := pages.sz_le owns
  have amount : (n.toNat : Int) = n.toInt ∧ n.toNat < 2 ^ 31 := by
    rw [BitVec.toInt_eq_toNat_cond] at positive ⊢
    have := n.isLt
    split at positive <;> omega
  obtain ⟨newsz, isNew⟩ : ∃ newsz, newsz = (s.proc p).sz + n.toNat := ⟨_, rfl⟩
  have fits : (s.proc p).sz % 2 ^ 32 = (s.proc p).sz := Nat.mod_eq_of_lt (by omega)
  have sum : ((s.proc p).sz % 2 ^ 32 + n.toNat) % 2 ^ 32 = newsz := by
    rw [fits, ← isNew, Nat.mod_eq_of_lt (by omega)]
  have exact : ∀ vpn ≤ 2 ^ 15, ((s.uvm p).leafAt vpn).isSome ↔ vpn * PGSIZE < (s.proc p).sz :=
    fun vpn small => heap_iff pages vpn (by simp only [PGSIZE, MMAP_VSTART]; omega)
  obtain ⟨grown, u', alloc, small, grew⟩ := Uvm.uvmalloc_grew owns exact (by omega : (s.proc p).sz ≤ newsz)
  have ran := growproc_positive (p := p) positive (by rw [sum, fits]; exact alloc)
  cases grown with
  | false =>
      refine ⟨false, s.withUvm p u', ran, by simp, by simp, fun vpn _ => ?_,
        fun _ => ⟨sz_withUvm s p u', fun vpn => ?_⟩, by simp⟩
      · rw [uvm_withUvm]
        exact grew.leaves.others vpn (by simp)
      · rw [uvm_withUvm]
        exact grew.leaves.others vpn (by simp)
  | true =>
      simp only [if_true] at ran grew
      have old : ∀ vpn < Uvm.pageCount (s.proc p).sz, ((s.uvm p).leafAt vpn).isSome := fun vpn below =>
        (exact vpn (by omega)).mpr (Uvm.lt_pageCount.mp below)
      have all : ∀ vpn < Uvm.pageCount newsz, (u'.leafAt vpn).isSome := by
        intro vpn below
        by_cases new : Uvm.pageCount (s.proc p).sz ≤ vpn
        · obtain ⟨_, pa, found⟩ := grew.leaves.added vpn new below
          exact Option.isSome_iff_exists.mpr ⟨_, found⟩
        · rw [grew.leaves.others vpn (by omega)]
          exact old vpn (by omega)
      have large := u'.pages_le grew.owns all
      have top : newsz ≤ 2 ^ 27 := by
        unfold Uvm.pageCount at large
        simp only [PGSIZE] at large
        omega
      have word : newsz % 2 ^ 32 = newsz := Nat.mod_eq_of_lt (by omega)
      rw [word, if_neg (by omega)] at ran
      refine ⟨true, _, ran, fun _ => ⟨?_, ?_⟩, fun _ vpn low => ?_, fun vpn high => ?_, by simp, fun _ _ => ?_⟩
      · rw [sz_withSize]
        omega
      · rw [sz_withSize]
        simp only [MMAP_VSTART]
        omega
      · rw [uvm_withSize, uvm_withUvm, sz_withSize, ← Uvm.lt_pageCount]
        refine ⟨fun some => ?_, all vpn⟩
        by_contra above
        have ordered : Uvm.pageCount (s.proc p).sz ≤ Uvm.pageCount newsz := by
          unfold Uvm.pageCount
          simp only [PGSIZE]
          omega
        rw [grew.leaves.others vpn (by omega), heap_iff pages vpn low, ← Uvm.lt_pageCount] at some
        omega
      · rw [uvm_withSize, uvm_withUvm]
        refine grew.leaves.others vpn fun inside => ?_
        simp only [PGSIZE, MMAP_VSTART] at high
        omega
      · obtain ⟨u'', back, again, _⟩ := grew.undo (by omega) small old
        have opposite : (-n).toInt < 0 ∧ (newsz + (-n).toNat) % 2 ^ 32 = (s.proc p).sz := by
          rw [BitVec.toInt_eq_toNat_cond, BitVec.toNat_neg]
          have := n.isLt
          have nonzero : (2 ^ 32 - n.toNat) % 2 ^ 32 = 2 ^ 32 - n.toNat := Nat.mod_eq_of_lt (by omega)
          rw [nonzero]
          constructor
          · split <;> omega
          · omega
        obtain ⟨s₁, isS₁⟩ : ∃ s₁, s₁ = (s.withUvm p u').withSize p newsz := ⟨_, rfl⟩
        have size₁ : (s₁.proc p).sz = newsz := by rw [isS₁, sz_withSize]
        have uvm₁ : s₁.uvm p = u' := by rw [isS₁, uvm_withSize, uvm_withUvm]
        have ran' := growproc_negative (s := s₁) (p := p) opposite.1 (by
          rw [size₁, uvm₁, word, opposite.2]
          exact back)
        rw [← isS₁]
        refine ⟨_, ran', ?_, ?_, ?_⟩
        · rw [sz_withSize, fits]
        · rw [uvm_withSize, uvm_withUvm]
          exact again.restored owns
        · exact again.free_subset

/-- Shrinking is exact if there is as much memory as is given back. -/
theorem growproc_shrinks (owns : (s.uvm p).Owns rest) (pages : UserPages (s.proc p).sz (s.uvm p).pagetable)
    (negative : n.toInt < 0) (enough : 0 ≤ ((s.proc p).sz : Int) + n.toInt) :
    ∃ done s', s.growproc p n = .ok (done, s') ∧ s.Exact p n done s' := by
  have bound := pages.sz_le owns
  have amount : (n.toNat : Int) = n.toInt + 2 ^ 32 := by
    rw [BitVec.toInt_eq_toNat_cond] at negative ⊢
    have := n.isLt
    split at negative <;> omega
  obtain ⟨newsz, isNew⟩ : ∃ newsz : Nat, (newsz : Int) = (s.proc p).sz + n.toInt :=
    ⟨_, Int.toNat_of_nonneg enough⟩
  have fits : (s.proc p).sz % 2 ^ 32 = (s.proc p).sz := Nat.mod_eq_of_lt (by omega)
  have sum : ((s.proc p).sz % 2 ^ 32 + n.toNat) % 2 ^ 32 = newsz := by omega
  have counts : Uvm.pageCount newsz ≤ Uvm.pageCount (s.proc p).sz ∧ Uvm.pageCount (s.proc p).sz ≤ 2 ^ 15 := by
    unfold Uvm.pageCount
    simp only [PGSIZE]
    omega
  have last : (s.proc p).sz ≤ Uvm.pageCount (s.proc p).sz * PGSIZE ∧
      Uvm.pageCount (s.proc p).sz * PGSIZE < (s.proc p).sz + PGSIZE := by
    unfold Uvm.pageCount
    simp only [PGSIZE]
    omega
  obtain ⟨u', dealloc, _, _, _, leaves⟩ := Uvm.uvmdealloc_back owns (Uvm.pgRoundUp_eq counts.2)
    (Uvm.pgRoundUp_eq (counts.1.trans counts.2)) (by omega : newsz ≤ (s.proc p).sz) last.1 last.2
    (by simp only [PGSIZE, MAXVA]; omega) fun vpn _ below => by
      obtain ⟨pte, found, readable, _⟩ := pages.heap vpn (Uvm.lt_pageCount.mp below)
      exact ⟨pte, found, by simp [Pte.bare, readable]⟩
  have ran := growproc_negative (p := p) negative (by rw [sum, fits]; exact dealloc)
  rw [Nat.mod_eq_of_lt (by omega : newsz < 2 ^ 32)] at ran
  refine ⟨true, _, ran, fun _ => ⟨?_, ?_⟩, fun _ vpn low => ?_, fun vpn high => ?_, by simp,
    fun _ positive => ?_⟩
  · rw [sz_withSize, isNew]
  · rw [sz_withSize]
    simp only [MMAP_VSTART]
    omega
  · rw [uvm_withSize, uvm_withUvm, sz_withSize, leaves]
    split
    · next inside =>
      rw [← Uvm.lt_pageCount]
      simp [not_lt.mpr inside.1]
    · next outside =>
      rw [heap_iff pages vpn low, ← Uvm.lt_pageCount, ← Uvm.lt_pageCount]
      omega
  · rw [uvm_withSize, uvm_withUvm, leaves, if_neg]
    rintro ⟨_, below⟩
    simp only [PGSIZE, MMAP_VSTART] at high
    omega
  · omega

/-- `sbrk(0)` changes nothing. -/
theorem growproc_stays (owns : (s.uvm p).Owns rest) (pages : UserPages (s.proc p).sz (s.uvm p).pagetable)
    (zero : n.toInt = 0) : ∃ done s', s.growproc p n = .ok (done, s') ∧ s.Exact p n done s' := by
  have bound := pages.sz_le owns
  have fits : (s.proc p).sz % 2 ^ 32 = (s.proc p).sz := Nat.mod_eq_of_lt (by omega)
  have ran := growproc_zero (s := s) (p := p) zero
  rw [fits] at ran
  refine ⟨true, _, ran, fun _ => ⟨?_, ?_⟩, fun _ vpn low => ?_, fun vpn _ => ?_, by simp,
    fun _ positive => ?_⟩
  · rw [sz_withSize, zero, add_zero]
  · rw [sz_withSize]
    simp only [MMAP_VSTART]
    omega
  · rw [uvm_withSize, sz_withSize]
    exact heap_iff pages vpn low
  · rw [uvm_withSize]
  · omega

/-- More memory than there is cannot be given back, but `growproc` says that it was. -/
theorem growproc_ignores (owns : (s.uvm p).Owns rest) (pages : UserPages (s.proc p).sz (s.uvm p).pagetable)
    (short : ((s.proc p).sz : Int) + n.toInt < 0) : ∃ s', s.growproc p n = .ok (true, s') ∧
      (s'.proc p).sz = (s.proc p).sz := by
  have bound := pages.sz_le owns
  have amount : (n.toNat : Int) = n.toInt + 2 ^ 32 ∧ 2 ^ 31 ≤ n.toNat := by
    rw [BitVec.toInt_eq_toNat_cond] at short ⊢
    have := n.isLt
    split at short <;> omega
  have fits : (s.proc p).sz % 2 ^ 32 = (s.proc p).sz := Nat.mod_eq_of_lt (by omega)
  have wraps : ((s.proc p).sz + n.toNat) % 2 ^ 32 ≥ (s.proc p).sz := by omega
  have dealloc : (s.uvm p).uvmdealloc ((s.proc p).sz % 2 ^ 32) (((s.proc p).sz % 2 ^ 32 + n.toNat) % 2 ^ 32) =
      .ok ((s.proc p).sz, s.uvm p) := by
    rw [fits, Uvm.uvmdealloc, if_pos wraps]
    rfl
  refine ⟨_, growproc_negative (by omega) dealloc, ?_⟩
  rw [sz_withSize, fits]

/-- `growproc` returns, and it does what `sbrk` promises if the process has as much memory as it gives back. -/
theorem growproc_exact_iff (owns : (s.uvm p).Owns rest)
    (pages : UserPages (s.proc p).sz (s.uvm p).pagetable) :
    ∃ done s', s.growproc p n = .ok (done, s') ∧
      (s.Exact p n done s' ↔ 0 ≤ ((s.proc p).sz : Int) + n.toInt) := by
  by_cases enough : 0 ≤ ((s.proc p).sz : Int) + n.toInt
  · obtain ⟨done, s', ran, exact⟩ : ∃ done s', s.growproc p n = .ok (done, s') ∧ s.Exact p n done s' := by
      rcases lt_trichotomy n.toInt 0 with negative | zero | positive
      · exact growproc_shrinks owns pages negative enough
      · exact growproc_stays owns pages zero
      · exact growproc_grows owns pages positive
    exact ⟨done, s', ran, iff_of_true exact enough⟩
  · obtain ⟨s', ran, same⟩ := growproc_ignores (n := n) owns pages (by omega)
    refine ⟨true, s', ran, iff_of_false (fun exact => ?_) enough⟩
    have size := (exact.size rfl).1
    rw [same] at size
    omega

/-- Every process has the empty page table. -/
def emptyMachine : Machine where
  kmem := Uvm.emptyTable.kmem
  ftable := ⟨fun _ => {}, fun _ => {}⟩
  proc _ := { state := .running, pagetable := Uvm.emptyTable.pagetable }

theorem emptyMachine_pages (p : Fin NPROC) :
    UserPages (emptyMachine.proc p).sz (emptyMachine.uvm p).pagetable :=
  ⟨fun _ below => absurd below (Nat.not_lt_zero _), fun found => by cases found⟩

/-- A process grows by one byte. -/
theorem growproc_exact_one : ∃ done s', emptyMachine.growproc 0 1 = .ok (done, s') ∧
    (emptyMachine.Exact 0 1 done s' ↔ 0 ≤ ((emptyMachine.proc 0).sz : Int) + (1 : BitVec 32).toInt) :=
  growproc_exact_iff Uvm.emptyTable_owns (emptyMachine_pages 0)

/-- A process without memory gives one byte back, and is told that it did. -/
theorem growproc_inexact : ¬ ∀ (s : Machine) (p : Fin NPROC) (n : BitVec 32), (s.uvm p).Owns ∅ →
    UserPages (s.proc p).sz (s.uvm p).pagetable →
      ∃ done s', s.growproc p n = .ok (done, s') ∧ s.Exact p n done s' := by
  intro claim
  obtain ⟨done, s', ran, exact⟩ := claim emptyMachine 0 (-1) Uvm.emptyTable_owns (emptyMachine_pages 0)
  obtain ⟨s'', ran', same⟩ := growproc_ignores (s := emptyMachine) (p := 0) (n := -1) Uvm.emptyTable_owns
    (emptyMachine_pages 0) (by decide)
  cases ran.symm.trans ran'
  have size := (exact.size rfl).1
  rw [same] at size
  exact absurd size (by decide)

end Machine

end Riscv2os.Xv7
