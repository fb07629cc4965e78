import Riscv2os.Xv7.PageAccounts

/-!
# How many frames a page table takes

A table whose user pages are those from address 0 to a size has as many pages of its own as lead to them.
`uvmalloc` succeeds exactly if there are frames for what the new size takes more.
-/

namespace Riscv2os.Xv7

open Riscv2os.Std

/-- All frames are those of 128 MB. -/
theorem Kmem.Keeps.length_le {m : Kmem} {owned : Set Frame} (keeps : m.Keeps owned) :
    m.freelist.length ≤ 2 ^ 15 := by
  have inside : m.freelist.toFinset ⊆ Finset.Ico (KERNBASE / PGSIZE) (PHYSTOP / PGSIZE) := fun f free =>
    Finset.mem_Ico.mpr (keeps.free f (List.mem_toFinset.mp free)).2
  have count := Finset.card_le_card inside
  rw [List.toFinset_card_of_nodup keeps.nodup, Nat.card_Ico] at count
  exact count.trans (by simp [KERNBASE, PHYSTOP, PGSIZE])

namespace Uvm

variable {u u' : Uvm} {pte : Pte} {n : Nat}

/-- The frames for `n` user pages from address 0 on and for the pages of the table that lead to them, without
the root. -/
def frameCount (n : Nat) : Nat := n + (n + 511) / 512 + (n + 262143) / 262144

/-- Whether page number `n` is the first to need a page of the table that covers `width` pages. -/
def startsTable (width n : Nat) : Nat := if n % width = 0 then 1 else 0

theorem frameCount_succ (n : Nat) :
    frameCount (n + 1) = frameCount n + 1 + (startsTable 262144 n + startsTable 512 n) := by
  unfold frameCount startsTable
  split <;> split <;> omega

theorem frameCount_mono {m : Nat} (less : m ≤ n) : frameCount m ≤ frameCount n := by
  unfold frameCount
  omega

theorem le_frameCount (n : Nat) : n ≤ frameCount n := by
  unfold frameCount
  omega

/-- Of the pages of the table for entries of a level, those for the first 128 MB lead to pages below
number `n`. -/
def TablesBelow (u : Uvm) (level width n : Nat) : Prop :=
  ∀ i < 64, (u.pagetable.tables.lookup (level, i)).isSome ↔ i * width < n

/-- `walk` on one level for the page behind the last: the page of the table is there, or is allocated if there
is a frame for it. -/
theorem TablesBelow.child {level width : Nat} (tables : u.TablesBelow level width n) (positive : 0 < width)
    (small : n / width < 64) :
    ∃ found u', u.child level (n / width) = (found, u') ∧
      (∀ key : Nat × Nat, key.1 ≠ level → u'.pagetable.tables.lookup key = u.pagetable.tables.lookup key) ∧
      if found then u'.TablesBelow level width (n + 1) ∧
        u'.kmem.freelist.length + startsTable width n = u.kmem.freelist.length
      else startsTable width n = 1 ∧ u' = u ∧ u.kmem.freelist = [] := by
  have here := tables (n / width) small
  have parts := Nat.div_add_mod' n width
  have next : ∀ i, i * width < n + 1 ↔ i = n / width ∧ n % width = 0 ∨ i * width < n := by
    intro i
    constructor
    · intro below
      by_cases before : i * width < n
      · exact .inr before
      · obtain rfl : i * width = n := by omega
        exact .inl ⟨(Nat.mul_div_cancel i positive).symm, Nat.mul_mod_left i width⟩
    · rintro (⟨rfl, starts⟩ | before) <;> omega
  unfold Uvm.child
  cases entry : u.pagetable.tables.lookup (level, n / width) with
  | some page =>
      have later : ¬ n % width = 0 := by
        rw [entry] at here
        have before := here.mp rfl
        omega
      refine ⟨true, u, rfl, fun _ _ => rfl, fun i below => ?_, ?_⟩
      · rw [tables i below, next]
        simp [later]
      · rw [startsTable, if_neg later, Nat.add_zero]
  | none =>
      have starts : n % width = 0 := by
        rw [entry] at here
        have after : ¬ n / width * width < n := fun before => by cases here.mpr before
        omega
      cases alloc : u.kmem.kalloc with
      | none =>
          exact ⟨false, u, rfl, fun _ _ => rfl, if_pos starts, rfl, kalloc_none.mp alloc⟩
      | some result =>
          obtain ⟨pa, m⟩ := result
          refine ⟨true, _, rfl, fun key other => ?_, fun i below => ?_, ?_⟩
          · exact AList.lookup_insert_ne fun same => other (by rw [same])
          · rw [next]
            by_cases same : i = n / width
            · subst same
              simp [starts]
            · rw [AList.lookup_insert_ne (by simpa using same), tables i below]
              simp [same]
          · rw [startsTable, if_pos starts, kalloc_freelist alloc]
            rfl

/-- A table with the pages that lead to `n` user pages. -/
structure Tabled (u : Uvm) (n : Nat) : Prop where
  upper : u.TablesBelow 2 262144 n
  lower : u.TablesBelow 1 512 n

theorem Tabled.congr (tabled : u.Tabled n) (same : u'.pagetable.tables = u.pagetable.tables) : u'.Tabled n := by
  refine ⟨fun i below => ?_, fun i below => ?_⟩
  · rw [same]
    exact tabled.upper i below
  · rw [same]
    exact tabled.lower i below

/-- `mappages` for the page behind the last succeeds exactly if there are frames for the pages of the table that
it is the first to need. -/
theorem Tabled.mappages {mapped : Bool} (tabled : u.Tabled n) (small : n < 2 ^ 15)
    (ran : u.mappages (n * PGSIZE) pte = .ok (mapped, u')) :
    if mapped then u'.Tabled (n + 1) ∧
      u'.kmem.freelist.length + (startsTable 262144 n + startsTable 512 n) = u.kmem.freelist.length
    else u.kmem.freelist.length < startsTable 262144 n + startsTable 512 n := by
  have low : ¬ n * PGSIZE ≥ MAXVA := by
    simp only [PGSIZE, MAXVA]
    omega
  have first : n * PGSIZE / 2 ^ 30 = n / 262144 := by
    simp only [PGSIZE]
    omega
  have second : n * PGSIZE / 2 ^ 21 = n / 512 := by
    simp only [PGSIZE]
    omega
  obtain ⟨⟨found, walked⟩, walk, ran⟩ := bind_ok.mp ran
  rw [walkAlloc, if_neg low, first, second] at walk
  obtain ⟨found₂, u₂, child₂, others₂, result₂⟩ := tabled.upper.child (by norm_num) (by omega)
  rw [child₂] at walk
  cases found₂ with
  | false =>
      obtain ⟨starts, -, empty⟩ := result₂
      cases walk
      cases ran
      rw [empty, starts]
      exact Nat.lt_of_lt_of_le Nat.zero_lt_one (Nat.le_add_right 1 _)
  | true =>
      obtain ⟨upper, count₂⟩ := result₂
      have lower : u₂.TablesBelow 1 512 n := fun i below => by
        rw [others₂ (1, i) (by simp)]
        exact tabled.lower i below
      obtain ⟨found₁, u₁, child₁, others₁, result₁⟩ := lower.child (by norm_num) (by omega)
      have walked_eq : (found, walked) = (found₁, u₁) := by
        rw [← child₁]
        exact (Except.ok.inj walk).symm
      cases walked_eq
      cases found with
      | false =>
          obtain ⟨starts, -, empty⟩ := result₁
          cases ran
          rw [empty] at count₂
          rw [← count₂, starts]
          simp
      | true =>
          obtain ⟨lower', count₁⟩ := result₁
          simp only [Bool.not_true, Bool.false_eq_true, if_false] at ran
          split at ran
          · cases ran
          cases ran
          have upper' : walked.TablesBelow 2 262144 (n + 1) := fun i below => by
            rw [others₁ (2, i) (by simp)]
            exact upper i below
          refine ⟨Tabled.congr ⟨upper', lower'⟩ rfl, ?_⟩
          show walked.kmem.freelist.length + _ = _
          omega

/-- A table with `n` user pages that share `frames` frames with the free ones. -/
structure Laid (u : Uvm) (n frames : Nat) : Prop where
  tabled : u.Tabled n
  count : u.kmem.freelist.length + frameCount n = frames

/-- The loop of `uvmalloc` adds the pages exactly if there are frames for them. -/
theorem Laid.growPages {start count frames : Nat} {grown : Bool} (laid : u.Laid n frames)
    (few : frames ≤ 2 ^ 15) (ran : growPages start count (n * PGSIZE) u = .ok (grown, u')) :
    if grown then u'.Laid (n + count) frames else frames < frameCount (n + count) := by
  induction count generalizing u n with
  | zero =>
      cases ran
      exact laid
  | succ count ih =>
      have counted := laid.count
      have one := frameCount_succ n
      have more : frameCount (n + 1) ≤ frameCount (n + (count + 1)) := frameCount_mono (by omega)
      rw [Uvm.growPages] at ran
      cases alloc : u.kmem.kalloc with
      | none =>
          rw [alloc] at ran
          obtain ⟨_, _, ran⟩ := bind_ok.mp ran
          cases ran
          rw [kalloc_none.mp alloc, List.length_nil] at counted
          show frames < _
          omega
      | some result =>
          obtain ⟨pa, m⟩ := result
          rw [alloc] at ran
          obtain ⟨⟨mapped, next⟩, mapping, ran⟩ := bind_ok.mp ran
          have list := congrArg List.length (kalloc_freelist alloc)
          rw [List.length_cons] at list
          have small : n < 2 ^ 15 := by
            have least := le_frameCount n
            omega
          have tabled : (⟨m.setPage pa fun _ => 0, u.pagetable⟩ : Uvm).Tabled n := laid.tabled.congr rfl
          have spec := tabled.mappages small mapping
          have free : (m.setPage pa fun _ => 0).freelist.length = m.freelist.length := rfl
          rw [free] at spec
          cases mapped with
          | false =>
              obtain ⟨_, _, ran⟩ := bind_ok.mp ran
              cases ran
              simp only [Bool.false_eq_true, if_false] at spec ⊢
              omega
          | true =>
              obtain ⟨tabled', count'⟩ := spec
              have laid' : next.Laid (n + 1) frames := ⟨tabled', by omega⟩
              have address : n * PGSIZE + PGSIZE = (n + 1) * PGSIZE := by ring
              simp only [if_true] at ran
              rw [address] at ran
              have rest := ih laid' ran
              rwa [show n + 1 + count = n + (count + 1) by omega] at rest

/-- `uvmalloc` succeeds exactly if there are frames for the new size. -/
theorem Laid.uvmalloc {oldsz newsz sz frames : Nat} (laid : u.Laid (pageCount oldsz) frames)
    (few : frames ≤ 2 ^ 15) (more : oldsz ≤ newsz) (ran : u.uvmalloc oldsz newsz = .ok (sz, u')) :
    sz = newsz ∧ u'.Laid (pageCount newsz) frames ∨ sz = 0 ∧ frames < frameCount (pageCount newsz) := by
  have least := le_frameCount (pageCount oldsz)
  have counted := laid.count
  rw [Uvm.uvmalloc, if_neg (not_lt.mpr more)] at ran
  obtain ⟨⟨grown, next⟩, grew, ran⟩ := bind_ok.mp ran
  cases ran
  rw [pgRoundUp_eq (by omega)] at grew
  have spec := laid.growPages few grew
  rw [pageCount_add more] at spec
  cases grown with
  | false => exact .inr ⟨rfl, spec⟩
  | true => exact .inl ⟨rfl, spec⟩

/-- `uvmalloc` returns with all pages of the new size or with those of the old one, whatever memory there
is. If the table has only what the old size takes, the number of the free frames decides. -/
theorem uvmalloc_allOrNothing {rest : Set Frame} {oldsz newsz : Nat} (owns : u.Owns rest)
    (exact : u.ExactPages oldsz) (more : oldsz ≤ newsz) :
    ∃ sz u', u.uvmalloc oldsz newsz = .ok (sz, u') ∧ u.KeepsPages u' ∧
      (sz = newsz ∧ u.Allocated oldsz newsz u' ∧ (∀ frames ≤ 2 ^ 15, u.Laid (pageCount oldsz) frames →
          frameCount (pageCount newsz) ≤ frames) ∨
        sz = 0 ∧ u.Restored u' ∧ ∀ frames ≤ 2 ^ 15, u.Laid (pageCount oldsz) frames →
          frames < frameCount (pageCount newsz)) := by
  obtain ⟨grown, u', ran, small, grew⟩ := uvmalloc_grew owns (fun vpn _ => exact vpn) more
  refine ⟨_, u', ran, grew.keepsPages, ?_⟩
  by_cases all : grown = true ∨ newsz = 0
  · have grew : u.Grew rest (pageCount oldsz) (pageCount newsz) u' := by
      rcases all with rfl | none
      · exact grew
      · have same : pageCount oldsz = pageCount newsz := by
          rw [none] at more ⊢
          rw [Nat.le_zero.mp more]
        rw [same, ite_self] at grew
        rwa [same]
    have size : (if grown then newsz else 0) = newsz := by
      rcases all with rfl | none
      · rfl
      · rw [none, ite_self]
    rw [size] at ran ⊢
    refine .inl ⟨rfl, grew.allocated exact more small, fun frames few laid => ?_⟩
    rcases laid.uvmalloc few more ran with ⟨-, laid'⟩ | ⟨rfl, -⟩
    · exact laid'.count ▸ Nat.le_add_left ..
    · exact Nat.zero_le _
  · obtain ⟨failed, some⟩ := not_or.mp all
    rw [if_neg failed] at ran grew ⊢
    refine .inr ⟨rfl, grew.restored owns, fun frames few laid => ?_⟩
    rcases laid.uvmalloc few more ran with ⟨none, -⟩ | ⟨-, fewer⟩
    · exact absurd none.symm some
    · exact fewer

theorem emptyTable_laid : emptyTable.Laid (pageCount 0) 3 :=
  ⟨⟨fun _ _ => iff_of_false Bool.false_ne_true (Nat.not_lt_zero _),
    fun _ _ => iff_of_false Bool.false_ne_true (Nat.not_lt_zero _)⟩, rfl⟩

/-- Three frames are enough for one page and the two pages of the table that lead to it, but not for two pages. -/
theorem uvmalloc_allOrNothing_two :
    (∃ u', emptyTable.uvmalloc 0 4096 = .ok (4096, u') ∧ emptyTable.Allocated 0 4096 u') ∧
      ∃ u', emptyTable.uvmalloc 0 8192 = .ok (0, u') ∧ emptyTable.Restored u' := by
  have exact : emptyTable.ExactPages 0 := fun vpn => iff_of_false Bool.false_ne_true (Nat.not_lt_zero _)
  constructor
  · obtain ⟨sz, u', ran, -, ⟨rfl, allocated, -⟩ | ⟨-, -, few⟩⟩ :=
      uvmalloc_allOrNothing emptyTable_owns exact (by decide : 0 ≤ 4096)
    · exact ⟨u', ran, allocated⟩
    · exact absurd (few 3 (by decide) emptyTable_laid) (by decide)
  · obtain ⟨sz, u', ran, -, ⟨-, -, enough⟩ | ⟨rfl, restored, -⟩⟩ :=
      uvmalloc_allOrNothing emptyTable_owns exact (by decide : 0 ≤ 8192)
    · exact absurd (enough 3 (by decide) emptyTable_laid) (by decide)
    · exact ⟨u', ran, restored⟩

end Uvm

end Riscv2os.Xv7
