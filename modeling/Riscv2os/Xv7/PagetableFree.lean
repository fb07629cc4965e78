import Riscv2os.Xv7.UserPages

/-!
# When a page table can be freed

`proc_freepagetable` unmaps the memory below the size of the process, and `freewalk` then
takes every entry that is left for one that refers to a page of the table.
-/

namespace Riscv2os.Xv7

open Riscv2os.Std

namespace Kmem

variable {m : Kmem} {frames : List Frame} {f : Frame}

theorem mem_kfreeAll : f ∈ (frames.foldl kfree m).freelist ↔ f ∈ frames ∨ f ∈ m.freelist := by
  induction frames generalizing m with
  | nil => simp
  | cons g frames ih =>
      rw [List.foldl_cons, ih]
      simp only [kfree, setPage, List.mem_cons]
      tauto

end Kmem

namespace Uvm

variable {u u' u'' : Uvm} {rest : Set Frame} {m : Kmem} {va sz : Nat} {pte : Pte}

/-- Entries go away, and their frames become free. -/
structure Frees (u u' : Uvm) : Prop where
  root : u'.pagetable.root = u.pagetable.root
  tables : u'.pagetable.tables = u.pagetable.tables
  leaves : ∀ {vpn pte}, u.leafAt vpn = some pte → u'.leafAt vpn = some pte ∨ pte.pa ∈ u'.kmem.freelist
  more : u.kmem.freelist ⊆ u'.kmem.freelist

theorem Frees.refl (u : Uvm) : u.Frees u := ⟨rfl, rfl, .inl, List.Subset.refl _⟩

theorem Frees.trans (first : u.Frees u') (second : u'.Frees u'') : u.Frees u'' where
  root := second.root.trans first.root
  tables := second.tables.trans first.tables
  leaves found := by
    rcases first.leaves found with kept | free
    · exact second.leaves kept
    · exact .inr (second.more free)
  more := List.Subset.trans first.more second.more

/-- Every frame of the table is still there or free. -/
theorem Frees.frames (frees : u.Frees u') {f : Frame} (own : f ∈ u.pagetable.frames) :
    f ∈ u'.pagetable.frames ∨ f ∈ u'.kmem.freelist := by
  obtain ⟨place, found⟩ := own
  cases place with
  | root => exact .inl ⟨.root, (congrArg some frees.root).trans found⟩
  | table level index =>
      left
      refine ⟨.table level index, ?_⟩
      rwa [PageTable.frameAt, frees.tables]
  | leaf vpn =>
      obtain ⟨pte, entry, rfl⟩ := Option.map_eq_some_iff.mp found
      exact (frees.leaves entry).imp_left frame_of_leaf

/-- The entry is cleared and the frame freed. -/
theorem Frees.clearLeaf (found : u.leafAt (va / PGSIZE) = some pte) :
    u.Frees ⟨u.kmem.kfree pte.pa, u.pagetable.clearLeaf va⟩ where
  root := rfl
  tables := rfl
  leaves {vpn pte'} found' := by
    by_cases same : vpn = va / PGSIZE
    · rw [same, found] at found'
      cases found'
      exact .inr List.mem_cons_self
    · left
      rwa [leafAt_clearLeaf, if_neg same]
  more _ free := List.mem_cons_of_mem _ free

theorem unmapPage_eq {doFree : Bool} (ran : u.unmapPage va doFree = .ok u') :
    ∃ pte, u.leafAt (va / PGSIZE) = some pte ∧
      u' = ⟨if doFree then u.kmem.kfree pte.pa else u.kmem, u.pagetable.clearLeaf va⟩ := by
  rw [unmapPage, bind_ok] at ran
  obtain ⟨entry, walked, ran⟩ := ran
  have found : u.leafAt (va / PGSIZE) = entry := by
    unfold PageTable.walk at walked
    split at walked
    · cases walked
    · exact Except.ok.inj walked
  cases entry with
  | none =>
      dsimp only at ran
      split at ran <;> cases ran
  | some pte =>
      dsimp only at ran
      split at ran
      · cases ran
      · exact ⟨pte, found, (Except.ok.inj ran).symm⟩

theorem unmapPages_frees {count : Nat} (ran : unmapPages true count va u = .ok u') : u.Frees u' := by
  induction count generalizing u va with
  | zero =>
      cases ran
      exact .refl _
  | succ count ih =>
      rw [unmapPages, bind_ok] at ran
      obtain ⟨next, first, ran⟩ := ran
      obtain ⟨pte, found, rfl⟩ := unmapPage_eq first
      exact (Frees.clearLeaf found).trans (ih ran)

theorem uvmunmap_frees {size : Nat} (ran : u.uvmunmap va size true = .ok u') : u.Frees u' :=
  unmapPages_frees ran

/-- The page of a mapping that starts at a page boundary becomes free. -/
theorem dropPage_frees (owns : u.Owns rest) (aligned : va % PGSIZE = 0)
    (found : u.leafAt (va / PGSIZE) = some pte) (ran : u.dropPage va pte.pa = .ok u') :
    u.Frees u' := by
  rw [dropPage, bind_ok] at ran
  obtain ⟨cleared, unmapped, ran⟩ := ran
  cases ran
  rw [uvmunmap, unmapPages, bind_ok] at unmapped
  obtain ⟨next, first, unmapped⟩ := unmapped
  have low : pgRoundDown va < MAXVA := by
    rw [unmapPage, bind_ok] at first
    obtain ⟨_, walked, _⟩ := first
    unfold PageTable.walk at walked
    split at walked
    · cases walked
    · omega
  have down : pgRoundDown va = va := by
    unfold pgRoundDown
    simp only [PGSIZE] at aligned ⊢
    omega
  have count : (va + PGSIZE + 2 ^ 64 - 1) % 2 ^ 64 / PGSIZE - va / PGSIZE = 0 := by
    rw [down] at low
    simp only [PGSIZE, MAXVA] at low aligned ⊢
    omega
  rw [count, unmapPages] at unmapped
  cases unmapped
  rw [down] at first
  obtain ⟨pte', found', rfl⟩ := unmapPage_eq first
  cases found.symm.trans found'
  have derefs : u.kmem.kderef pte.pa = u.kmem.kfree pte.pa :=
    owns.keeps.kderef_eq (.inl (frame_of_leaf found))
  simp only [Bool.false_eq_true, if_false, derefs]
  exact .clearLeaf found

theorem unmapPages_returns {doFree : Bool} {count : Nat} (high : va + count * PGSIZE ≤ MAXVA)
    (ready : ∀ k < count, ∃ pte, u.leafAt (va / PGSIZE + k) = some pte ∧ pte.bare = false) :
    ∃ u', unmapPages doFree count va u = .ok u' := by
  induction count generalizing u va with
  | zero => exact ⟨u, rfl⟩
  | succ count ih =>
      obtain ⟨pte, found, leaf⟩ := ready 0 (Nat.succ_pos count)
      obtain ⟨next, first⟩ : ∃ next, u.unmapPage va doFree = .ok next := by
        have walk : u.pagetable.walk va = .ok (some pte) := by
          rw [PageTable.walk, if_neg (by simp only [PGSIZE] at high; omega)]
          exact congrArg Except.ok found
        rw [unmapPage, walk]
        simp only [bind, Except.bind, leaf]
        exact ⟨_, rfl⟩
      have step : (va + PGSIZE) / PGSIZE = va / PGSIZE + 1 := Nat.add_div_right va (by decide)
      have high' : va + PGSIZE + count * PGSIZE ≤ MAXVA := by
        simp only [PGSIZE] at high ⊢
        omega
      obtain ⟨u', later⟩ := ih (u := next) high' <| by
        intro k below
        obtain ⟨pte', found', leaf'⟩ := ready (k + 1) (by omega)
        obtain ⟨_, _, rfl⟩ := unmapPage_eq first
        refine ⟨pte', ?_, leaf'⟩
        rw [step, leafAt_clearLeaf, if_neg (by omega), ← found']
        congr 1
        omega
      exact ⟨u', bind_ok.mpr ⟨next, first, later⟩⟩

/-- What `freewalk` makes of an entry that is left. -/
def Empty (m : Kmem) (pte : Pte) : Prop := pte.rightless = true ∧ noEntries (m.mem pte.pa) = true

theorem freeLeaf_iff : (∃ m', freeLeaf m pte = .ok m') ↔ Empty m pte := by
  unfold freeLeaf Empty
  cases pte.rightless <;> cases noEntries (m.mem pte.pa) <;> simp

theorem freeLeaf_eq {m' : Kmem} (ran : freeLeaf m pte = .ok m') : m' = m.kfree pte.pa := by
  unfold freeLeaf at ran
  split at ran
  · cases ran
  split at ran
  · exact (Except.ok.inj ran).symm
  · cases ran

/-- A freed page does not change what is in the others. -/
theorem Empty.kfree {f : Frame} (other : pte.pa ≠ f) : Empty (m.kfree f) pte ↔ Empty m pte := by
  unfold Empty Kmem.kfree Kmem.setPage
  simp only [Function.update_of_ne other]

/-- `freewalk` gets through the entries if each is empty. -/
private theorem freeLeaves_returns {leaves : List (Sigma fun _ : Nat => Pte)}
    (nodup : (leaves.map fun leaf => leaf.2.pa).Nodup) :
    (∃ m', leaves.foldlM (fun m leaf => freeLeaf m leaf.2) m = .ok m') ↔
      ∀ leaf ∈ leaves, Empty m leaf.2 := by
  induction leaves generalizing m with
  | nil => exact ⟨fun _ leaf listed => (List.not_mem_nil listed).elim, fun _ => ⟨m, rfl⟩⟩
  | cons leaf leaves ih =>
      obtain ⟨apart, nodup⟩ := List.nodup_cons.mp nodup
      have later : ∀ other ∈ leaves, (Empty (m.kfree leaf.2.pa) other.2 ↔ Empty m other.2) := by
        refine fun other listed => Empty.kfree fun same => apart ?_
        exact List.mem_map.mpr ⟨other, listed, same⟩
      simp only [List.foldlM_cons, bind_ok, List.forall_mem_cons]
      constructor
      · rintro ⟨m', next, first, ran⟩
        refine ⟨freeLeaf_iff.mp ⟨next, first⟩, fun other listed => (later other listed).mp ?_⟩
        rw [freeLeaf_eq first] at ran
        exact (ih nodup).mp ⟨m', ran⟩ other listed
      · rintro ⟨empty, rest⟩
        obtain ⟨next, first⟩ := freeLeaf_iff.mpr empty
        obtain ⟨m', ran⟩ := (ih nodup).mpr fun other listed =>
          (later other listed).mpr (rest other listed)
        exact ⟨m', next, first, by rwa [freeLeaf_eq first]⟩

/-- `freewalk` returns if every entry is empty. -/
theorem freewalk_returns (owns : u.Owns rest) :
    (∃ m, u.freewalk = .ok m) ↔ ∀ vpn pte, u.leafAt vpn = some pte → Empty u.kmem pte := by
  have nodup : (u.pagetable.leaves.entries.map fun leaf => leaf.2.pa).Nodup := by
    have own := nodup_ownFrames owns.distinct
    rw [ownFrames, List.append_assoc] at own
    exact List.Nodup.of_append_left own
  have entries : (∀ leaf ∈ u.pagetable.leaves.entries, Empty u.kmem leaf.2) ↔
      ∀ vpn pte, u.leafAt vpn = some pte → Empty u.kmem pte := by
    constructor
    · exact fun all vpn pte found => all ⟨vpn, pte⟩ (AList.mem_lookup_iff.mp found)
    · exact fun all leaf listed => all leaf.1 leaf.2 (AList.mem_lookup_iff.mpr listed)
  rw [← entries, ← freeLeaves_returns nodup]
  constructor
  · rintro ⟨m, ran⟩
    obtain ⟨m', leaves, _⟩ := bind_ok.mp ran
    exact ⟨m', leaves⟩
  · rintro ⟨m', leaves⟩
    exact ⟨_, bind_ok.mpr ⟨m', leaves, rfl⟩⟩

/-- `freewalk` frees all frames of the table. -/
theorem freewalk_frees (ran : u.freewalk = .ok m) {f : Frame}
    (free : f ∈ u.pagetable.frames ∨ f ∈ u.kmem.freelist) : f ∈ m.freelist := by
  rw [freewalk_eq ran, Kmem.mem_kfreeAll]
  exact free.imp_left mem_ownFrames.mpr

/-- Above the size of the process there is nothing that `freewalk` stumbles over. -/
def NothingAbove (u : Uvm) (sz : Nat) : Prop :=
  ∀ vpn pte, u.leafAt vpn = some pte → sz ≤ vpn * PGSIZE → Empty u.kmem pte

/-- A page that is free stays so. -/
theorem freeUser_more (ran : u.freeUser sz = .ok m) :
    u.kmem.freelist ⊆ m.freelist := by
  intro f free
  unfold freeUser at ran
  split at ran
  · obtain ⟨cleared, unmapped, walked⟩ := bind_ok.mp ran
    exact freewalk_frees walked (.inr ((uvmunmap_frees unmapped).more free))
  · cases ran
    exact free

/-- `proc_freepagetable` frees the whole table exactly if there is memory below the size and
nothing above it. -/
theorem freeUser_iff (owns : u.Owns rest) (pages : UserPages sz u.pagetable) :
    (∃ m, u.freeUser sz = .ok m ∧ ∀ f ∈ u.pagetable.frames, f ∈ m.freelist) ↔
      0 < sz ∧ u.NothingAbove sz := by
  by_cases positive : 0 < sz
  swap
  · -- the page of the root stays allocated
    refine iff_of_false ?_ fun condition => positive condition.1
    rintro ⟨m, ran, freed⟩
    rw [freeUser, if_neg positive] at ran
    cases ran
    have root : u.pagetable.root ∈ u.pagetable.frames := ⟨.root, rfl⟩
    have counted := (owns.keeps.taken _ (.inl root)).1
    rw [(owns.keeps.free _ (freed _ root)).1] at counted
    cases counted
  have bound := pages.sz_le owns
  have last : (0 + sz + 2 ^ 64 - 1) % 2 ^ 64 / PGSIZE = (sz - 1) / PGSIZE := by
    rw [show (0 + sz + 2 ^ 64 - 1) % 2 ^ 64 = sz - 1 by omega]
  obtain ⟨cleared, unmapped⟩ : ∃ cleared, u.uvmunmap 0 sz true = .ok cleared := by
    rw [uvmunmap, last]
    have down : pgRoundDown 0 = 0 := rfl
    rw [down]
    refine unmapPages_returns ?_ fun k below => ?_
    · simp only [PGSIZE, MAXVA]
      omega
    · obtain ⟨pte, found, readable, _⟩ := pages.heap k (by simp only [PGSIZE] at below ⊢; omega)
      refine ⟨pte, ?_, by simp [Pte.bare, readable]⟩
      rw [Nat.zero_div, Nat.zero_add]
      exact found
  obtain ⟨shrinks, leaves⟩ := uvmunmap_shrinks owns unmapped
  have frees := uvmunmap_frees unmapped
  have kept : ∀ vpn pte, cleared.leafAt vpn = some pte ↔ u.leafAt vpn = some pte ∧ sz ≤ vpn * PGSIZE := by
    intro vpn pte
    rw [leaves, unmapLast, last]
    have inside : 0 / PGSIZE ≤ vpn ∧ vpn < 0 / PGSIZE + ((sz - 1) / PGSIZE - 0 / PGSIZE + 1) ↔
        ¬ sz ≤ vpn * PGSIZE := by
      simp only [PGSIZE]
      omega
    simp only [inside]
    by_cases above : sz ≤ vpn * PGSIZE <;> simp [above]
  have content : ∀ {vpn pte}, cleared.leafAt vpn = some pte → (Empty cleared.kmem pte ↔ Empty u.kmem pte) := by
    intro vpn pte found
    unfold Empty
    rw [shrinks.mem (.inl (frame_of_leaf found))]
  have condition : u.NothingAbove sz ↔ ∃ m, cleared.freewalk = .ok m := by
    rw [freewalk_returns shrinks.owns]
    constructor
    · intro nothing vpn pte found
      obtain ⟨before, above⟩ := (kept vpn pte).mp found
      exact (content found).mpr (nothing vpn pte before above)
    · intro empty vpn pte before above
      have found := (kept vpn pte).mpr ⟨before, above⟩
      exact (content found).mp (empty vpn pte found)
  rw [condition, freeUser, if_pos positive]
  constructor
  · rintro ⟨m, ran, _⟩
    obtain ⟨cleared', unmapped', walked⟩ := bind_ok.mp ran
    cases unmapped.symm.trans unmapped'
    exact ⟨positive, m, walked⟩
  · rintro ⟨_, m, walked⟩
    exact ⟨m, bind_ok.mpr ⟨cleared, unmapped, walked⟩,
      fun f own => freewalk_frees walked (frees.frames own)⟩

/-- `proc_freepagetable` returns exactly if there is nothing above the memory, or no memory. -/
theorem freeUser_returns (owns : u.Owns rest) (pages : UserPages sz u.pagetable) :
    (∃ m, u.freeUser sz = .ok m) ↔ sz = 0 ∨ u.NothingAbove sz := by
  rcases Nat.eq_zero_or_pos sz with rfl | positive
  · exact iff_of_true ⟨_, rfl⟩ (.inl rfl)
  constructor
  · rintro ⟨m, ran⟩
    refine .inr ((freeUser_iff owns pages).mp ⟨m, ran, fun f own => ?_⟩).2
    rw [freeUser, if_pos positive] at ran
    obtain ⟨cleared, unmapped, walked⟩ := bind_ok.mp ran
    exact freewalk_frees walked ((uvmunmap_frees unmapped).frames own)
  · rintro (none | nothing)
    · omega
    · obtain ⟨m, ran, -⟩ := (freeUser_iff owns pages).mpr ⟨positive, nothing⟩
      exact ⟨m, ran⟩

end Uvm

end Riscv2os.Xv7
