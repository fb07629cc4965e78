import Riscv2os.Xv7.PagetableFree

/-!
# What a page table takes from the allocator

The free frames and the frames of a table together are its pool, which no function on the table changes.
A table with `n` user pages from address 0 on has a fixed number of pages of its own, so the number of free
frames tells whether `uvmalloc` succeeds.
-/

namespace Riscv2os.Xv7

open Riscv2os.Std

namespace PageTable

variable {pt pt' : PageTable} {place : Place} {f : Frame}

theorem frames_gain (vacant : pt.frameAt place = none)
    (places : pt'.frameAt = Function.update pt.frameAt place (some f)) :
    pt'.frames = insert f pt.frames := by
  ext g
  simp only [frames, places, Set.mem_ofPred_eq, Set.mem_insert_iff]
  constructor
  · rintro ⟨other, found⟩
    by_cases same : other = place
    · subst same
      rw [Function.update_self] at found
      exact .inl (Option.some.inj found).symm
    · rw [Function.update_of_ne same] at found
      exact .inr ⟨other, found⟩
  · rintro (rfl | ⟨other, found⟩)
    · exact ⟨place, Function.update_self ..⟩
    · refine ⟨other, ?_⟩
      have apart : other ≠ place := by
        rintro rfl
        rw [vacant] at found
        cases found
      rwa [Function.update_of_ne apart]

theorem frames_lose (had : pt.frameAt place = some f)
    (places : pt'.frameAt = Function.update pt.frameAt place none) :
    insert f pt'.frames = pt.frames := by
  ext g
  simp only [frames, places, Set.mem_ofPred_eq, Set.mem_insert_iff]
  constructor
  · rintro (rfl | ⟨other, found⟩)
    · exact ⟨place, had⟩
    · by_cases same : other = place
      · subst same
        rw [Function.update_self] at found
        cases found
      · rw [Function.update_of_ne same] at found
        exact ⟨other, found⟩
  · rintro ⟨other, found⟩
    by_cases same : other = place
    · subst same
      rw [had] at found
      exact .inl (Option.some.inj found).symm
    · exact .inr ⟨other, by rwa [Function.update_of_ne same]⟩

end PageTable

namespace Uvm

variable {u u' : Uvm} {m : Kmem} {pt : PageTable} {pte : Pte} {rest : Set Frame} {va f : Nat}

/-- The frames that are free or belong to the table. -/
def pool (u : Uvm) : Set Frame := {f | f ∈ u.kmem.freelist} ∪ u.pagetable.frames

theorem kalloc_freelist {m' : Kmem} (alloc : m.kalloc = some (f, m')) : m.freelist = f :: m'.freelist := by
  unfold Kmem.kalloc at alloc
  split at alloc
  · cases alloc
  next rest list =>
  cases alloc
  exact list

theorem kalloc_none : m.kalloc = none ↔ m.freelist = [] := by
  unfold Kmem.kalloc
  split <;> simp_all

/-- A frame that is allocated is in the pool no longer. -/
theorem pool_kalloc {m' : Kmem} (alloc : u.kmem.kalloc = some (f, m')) :
    insert f (⟨m', u.pagetable⟩ : Uvm).pool = u.pool := by
  ext g
  simp [pool, kalloc_freelist alloc, or_assoc]

theorem pool_kfree (m : Kmem) (pt : PageTable) (f : Frame) :
    (⟨m.kfree f, pt⟩ : Uvm).pool = insert f (⟨m, pt⟩ : Uvm).pool := by
  ext g
  simp [pool, Kmem.kfree, Kmem.setPage, or_assoc]

theorem child_pool {level index : Nat} {found : Bool} (ran : u.child level index = (found, u')) :
    u'.pool = u.pool := by
  unfold child at ran
  split at ran
  · cases ran
    rfl
  next vacant =>
  split at ran
  · cases ran
    rfl
  next pa m alloc =>
  cases ran
  have gained := PageTable.frames_gain (show u.pagetable.frameAt (.table level index) = none from vacant)
    (PageTable.frameAt_addTable u.pagetable level index pa)
  rw [← pool_kalloc alloc]
  unfold pool
  rw [gained, Set.union_insert]
  rfl

theorem walkAlloc_pool {found : Bool} (ran : u.walkAlloc va = .ok (found, u')) : u'.pool = u.pool := by
  unfold walkAlloc at ran
  split at ran
  · cases ran
  obtain ⟨⟨found₂, u₂⟩, first⟩ : ∃ result, u.child 2 (va / 2 ^ 30) = result := ⟨_, rfl⟩
  rw [first] at ran
  cases found₂ with
  | false =>
      cases ran
      exact child_pool first
  | true =>
      obtain ⟨⟨found₁, u₁⟩, second⟩ : ∃ result, u₂.child 1 (va / 2 ^ 21) = result := ⟨_, rfl⟩
      simp only [second, if_true] at ran
      cases ran
      exact (child_pool second).trans (child_pool first)

/-- `mappages` puts the frame of its entry into the pool. -/
theorem mappages_pool {mapped : Bool} (ran : u.mappages va pte = .ok (mapped, u')) :
    u'.pool = if mapped then insert pte.pa u.pool else u.pool := by
  rw [mappages, bind_ok] at ran
  obtain ⟨⟨found, walked⟩, walk, ran⟩ := ran
  have same := walkAlloc_pool walk
  cases found with
  | false =>
      cases ran
      exact same
  | true =>
      simp only [Bool.not_true, Bool.false_eq_true, if_false] at ran
      split at ran
      · cases ran
      next vacant =>
      cases ran
      have here : walked.pagetable.frameAt (.leaf (va / PGSIZE)) = none := by
        rw [PageTable.frameAt, show walked.pagetable.leaves.lookup (va / PGSIZE) = none from vacant]
        rfl
      have gained := PageTable.frames_gain here
        (PageTable.frameAt_setLeaf walked.pagetable va pte)
      rw [if_pos rfl, ← same]
      unfold pool
      rw [gained, Set.union_insert]

theorem unmapPage_pool (ran : u.unmapPage va true = .ok u') : u'.pool = u.pool := by
  obtain ⟨pte, found, rfl⟩ := unmapPage_eq ran
  have here : u.pagetable.frameAt (.leaf (va / PGSIZE)) = some pte.pa :=
    Option.map_eq_some_iff.mpr ⟨pte, found, rfl⟩
  have lost := PageTable.frames_lose here
    (PageTable.frameAt_clearLeaf u.pagetable va)
  rw [if_pos rfl, pool_kfree]
  unfold pool
  rw [← lost, Set.union_insert]

theorem unmapPages_pool {count : Nat} (ran : unmapPages true count va u = .ok u') : u'.pool = u.pool := by
  induction count generalizing u va with
  | zero =>
      cases ran
      rfl
  | succ count ih =>
      rw [unmapPages, bind_ok] at ran
      obtain ⟨next, first, ran⟩ := ran
      exact (ih ran).trans (unmapPage_pool first)

theorem uvmdealloc_pool {oldsz newsz sz : Nat} (ran : u.uvmdealloc oldsz newsz = .ok (sz, u')) :
    u'.pool = u.pool := by
  unfold uvmdealloc at ran
  split at ran
  · cases ran
    rfl
  dsimp only at ran
  split at ran
  · rw [bind_ok] at ran
    obtain ⟨cleared, unmapped, ran⟩ := ran
    cases ran
    exact unmapPages_pool unmapped
  · cases ran
    rfl

/-- `freewalk` frees the pool. -/
theorem freewalk_pool (ran : u.freewalk = .ok m) : {f | f ∈ m.freelist} = u.pool := by
  ext f
  rw [freewalk_eq ran]
  simp only [Set.mem_ofPred_eq, Kmem.mem_kfreeAll, mem_ownFrames, pool, Set.mem_union]
  exact or_comm

theorem child_tables {level index : Nat} {found : Bool} (ran : u.child level index = (found, u')) :
    u'.pagetable.root = u.pagetable.root ∧ ∀ {key f}, u.pagetable.tables.lookup key = some f →
      u'.pagetable.tables.lookup key = some f := by
  unfold child at ran
  split at ran
  · cases ran
    exact ⟨rfl, id⟩
  next vacant =>
  split at ran
  · cases ran
    exact ⟨rfl, id⟩
  cases ran
  refine ⟨rfl, fun {key f} had => ?_⟩
  have apart : key ≠ (level, index) := by
    rintro rfl
    rw [vacant] at had
    cases had
  exact (AList.lookup_insert_ne apart).trans had

/-- Pages of the table's own are there for good. -/
theorem walkAlloc_tables {found : Bool} (ran : u.walkAlloc va = .ok (found, u')) :
    u'.pagetable.root = u.pagetable.root ∧ ∀ {key f}, u.pagetable.tables.lookup key = some f →
      u'.pagetable.tables.lookup key = some f := by
  unfold walkAlloc at ran
  split at ran
  · cases ran
  obtain ⟨⟨found₂, u₂⟩, first⟩ : ∃ result, u.child 2 (va / 2 ^ 30) = result := ⟨_, rfl⟩
  rw [first] at ran
  have before := child_tables first
  cases found₂ with
  | false =>
      cases ran
      exact before
  | true =>
      obtain ⟨⟨found₁, u₁⟩, second⟩ : ∃ result, u₂.child 1 (va / 2 ^ 21) = result := ⟨_, rfl⟩
      simp only [second, if_true] at ran
      cases ran
      have after := child_tables second
      exact ⟨after.1.trans before.1, fun had => after.2 (before.2 had)⟩

theorem mappages_tables {mapped : Bool} (ran : u.mappages va pte = .ok (mapped, u')) :
    u'.pagetable.root = u.pagetable.root ∧ ∀ {key f}, u.pagetable.tables.lookup key = some f →
      u'.pagetable.tables.lookup key = some f := by
  rw [mappages, bind_ok] at ran
  obtain ⟨⟨found, walked⟩, walk, ran⟩ := ran
  have kept := walkAlloc_tables walk
  cases found with
  | false =>
      cases ran
      exact kept
  | true =>
      simp only [Bool.not_true, Bool.false_eq_true, if_false] at ran
      split at ran
      · cases ran
      cases ran
      exact kept

/-- `mappages` of a page that has no entry, below the end of the address space. -/
theorem mappages_returns (low : va < MAXVA) (pte : Pte) (vacant : u.leafAt (va / PGSIZE) = none)
    (owns : u.Owns rest) : ∃ mapped u', u.mappages va pte = .ok (mapped, u') := by
  obtain ⟨⟨found, walked⟩, walk⟩ : ∃ result, u.walkAlloc va = .ok result := by
    unfold walkAlloc
    rw [if_neg (not_le.mpr low)]
    dsimp only
    split <;> exact ⟨_, rfl⟩
  have same := (walkAlloc_grows owns walk).leaves
  have empty : walked.pagetable.lookup va = none := by
    rw [PageTable.lookup, same]
    exact vacant
  cases found with
  | false => exact ⟨false, walked, bind_ok.mpr ⟨(false, walked), walk, rfl⟩⟩
  | true =>
      refine ⟨true, ⟨walked.kmem, walked.pagetable.setLeaf va pte⟩,
        bind_ok.mpr ⟨(true, walked), walk, ?_⟩⟩
      simp only [Bool.not_true, Bool.false_eq_true, if_false, empty]
      rfl

/-- What `uvmalloc` has made of a table after the pages from number `low` to `high`. -/
structure Grew (before : Uvm) (rest : Set Frame) (low high : Nat) (u : Uvm) : Prop where
  owns : u.Owns rest
  root : u.pagetable.root = before.pagetable.root
  tables : ∀ {key f}, before.pagetable.tables.lookup key = some f →
    u.pagetable.tables.lookup key = some f
  leaves : u.Grown before.leafAt low high
  zeroed : ∀ {vpn pte}, low ≤ vpn → vpn < high → u.leafAt vpn = some pte →
    u.kmem.mem pte.pa = fun _ => 0
  mem : Set.EqOn u.kmem.mem before.kmem.mem (before.pagetable.frames ∪ rest)
  pool : u.pool = before.pool

namespace Grew

variable {before : Uvm} {low high : Nat}

theorem refl (owns : u.Owns rest) (low : Nat) : u.Grew rest low low u where
  owns := owns
  root := rfl
  tables := id
  leaves := ⟨fun vpn above below => by omega, fun _ _ => rfl⟩
  zeroed above below := by omega
  mem _ _ := rfl
  pool := rfl

/-- An entry that was there before still is. -/
theorem leaf (grew : before.Grew rest low high u) {vpn : Nat} (found : before.leafAt vpn = some pte) :
    u.leafAt vpn = some pte := by
  rw [← found]
  refine grew.leaves.others vpn fun inside => ?_
  rw [(grew.leaves.added vpn inside.1 inside.2).1] at found
  cases found

theorem frameAt (grew : before.Grew rest low high u) {place : PageTable.Place} {f : Frame}
    (had : before.pagetable.frameAt place = some f) : u.pagetable.frameAt place = some f := by
  cases place with
  | root => exact (congrArg some grew.root).trans had
  | table level index => exact grew.tables had
  | leaf vpn =>
      obtain ⟨pte, found, rfl⟩ := Option.map_eq_some_iff.mp had
      exact Option.map_eq_some_iff.mpr ⟨pte, grew.leaf found, rfl⟩

/-- A new page was free before. -/
theorem fresh (grew : before.Grew rest low high u) {vpn : Nat} (above : low ≤ vpn) (below : vpn < high)
    (found : u.leafAt vpn = some pte) : pte.pa ∈ before.kmem.freelist := by
  have inside : pte.pa ∈ before.pool := by
    rw [← grew.pool]
    exact .inr (frame_of_leaf found)
  rcases inside with free | ⟨place, had⟩
  · exact free
  have here : u.pagetable.frameAt (.leaf vpn) = some pte.pa :=
    Option.map_eq_some_iff.mpr ⟨pte, found, rfl⟩
  cases grew.owns.distinct (grew.frameAt had) here
  obtain ⟨old, found', _⟩ := Option.map_eq_some_iff.mp had
  cases ((grew.leaves.added vpn above below).1).symm.trans found'

end Grew

/-- Free frames do not belong to the table. -/
theorem Owns.not_free (owns : u.Owns rest) {f : Frame} (own : f ∈ u.pagetable.frames) :
    f ∉ u.kmem.freelist := by
  intro free
  have counted := (owns.keeps.taken f (.inl own)).1
  rw [(owns.keeps.free f free).1] at counted
  cases counted

/-- What `uvmdealloc` does to a table whose pages from number `low` to `high` are there. -/
theorem uvmdealloc_back {low high oldsz newsz : Nat} (owns : u.Owns rest)
    (old : pgRoundUp oldsz = high * PGSIZE) (new : pgRoundUp newsz = low * PGSIZE) (ordered : newsz ≤ oldsz)
    (above : oldsz ≤ high * PGSIZE) (last : high * PGSIZE < oldsz + PGSIZE) (top : high * PGSIZE ≤ MAXVA)
    (pages : ∀ vpn, low ≤ vpn → vpn < high → ∃ pte, u.leafAt vpn = some pte ∧ pte.bare = false) :
    ∃ u', u.uvmdealloc oldsz newsz = .ok (newsz, u') ∧ u.Shrinks u' rest ∧
      u'.pagetable.root = u.pagetable.root ∧ u'.pagetable.tables = u.pagetable.tables ∧
      ∀ vpn, u'.leafAt vpn = if low ≤ vpn ∧ vpn < high then none else u.leafAt vpn := by
  unfold uvmdealloc
  by_cases same : newsz ≥ oldsz
  · rw [if_pos same]
    obtain rfl : newsz = oldsz := le_antisymm ordered same
    have none : low = high := by
      rw [old] at new
      exact (Nat.eq_of_mul_eq_mul_right (by decide) new).symm
    exact ⟨u, rfl, .refl owns, rfl, rfl, fun vpn => by rw [if_neg (by omega)]⟩
  rw [if_neg same]
  simp only [old, new]
  by_cases fewer : low * PGSIZE < high * PGSIZE
  swap
  · rw [if_neg fewer]
    have none : high ≤ low := Nat.le_of_mul_le_mul_right (not_lt.mp fewer) (by decide)
    exact ⟨u, rfl, .refl owns, rfl, rfl, fun vpn => by rw [if_neg (by omega)]⟩
  rw [if_pos fewer]
  have more : low < high := Nat.lt_of_mul_lt_mul_right fewer
  have start : low * PGSIZE / PGSIZE = low := Nat.mul_div_cancel _ (by decide)
  have down : pgRoundDown (low * PGSIZE) = low * PGSIZE := by rw [pgRoundDown, start]
  have stop : unmapLast (low * PGSIZE) (oldsz - low * PGSIZE) = high - 1 := by
    unfold unmapLast
    simp only [PGSIZE, MAXVA] at *
    omega
  obtain ⟨u', unmapped⟩ : ∃ u', u.uvmunmap (low * PGSIZE) (oldsz - low * PGSIZE) true = .ok u' := by
    rw [uvmunmap, ← unmapLast, stop, start, down]
    refine unmapPages_returns ?_ fun k below => ?_
    · rw [show high - 1 - low + 1 = high - low by omega, ← Nat.add_mul, Nat.add_sub_cancel' more.le]
      exact top
    · rw [start]
      exact pages (low + k) (by omega) (by omega)
  obtain ⟨shrinks, leaves⟩ := uvmunmap_shrinks owns unmapped
  have frees := uvmunmap_frees unmapped
  refine ⟨u', bind_ok.mpr ⟨u', unmapped, rfl⟩, shrinks, frees.root, frees.tables, fun vpn => ?_⟩
  rw [leaves, start, stop, show low + (high - 1 - low + 1) = high by omega]

theorem pgRoundUp_mul {n : Nat} (small : n * PGSIZE < 2 ^ 64) : pgRoundUp (n * PGSIZE) = n * PGSIZE := by
  unfold pgRoundUp pgRoundDown
  simp only [PGSIZE] at small ⊢
  omega

namespace Grew

variable {before : Uvm} {low high : Nat}

/-- The pages that were added can be taken away again. -/
theorem back (grew : before.Grew rest low high u) (top : high * PGSIZE ≤ MAXVA)
    {oldsz newsz : Nat} (old : pgRoundUp oldsz = high * PGSIZE) (new : pgRoundUp newsz = low * PGSIZE)
    (sizes : newsz ≤ oldsz) (above : oldsz ≤ high * PGSIZE) (last : high * PGSIZE < oldsz + PGSIZE) :
    ∃ u', u.uvmdealloc oldsz newsz = .ok (newsz, u') ∧ before.Grew rest low low u' ∧
      u'.pagetable.tables = u.pagetable.tables := by
  obtain ⟨u', ran, shrinks, root, tables, leaves⟩ :=
    uvmdealloc_back grew.owns old new sizes above last top fun vpn above below => by
      obtain ⟨_, pa, found⟩ := grew.leaves.added vpn above below
      exact ⟨_, found, rfl⟩
  have restored : ∀ vpn, u'.leafAt vpn = before.leafAt vpn := by
    intro vpn
    rw [leaves]
    split
    · next inside => exact (grew.leaves.added vpn inside.1 inside.2).1.symm
    · next outside => exact grew.leaves.others vpn outside
  refine ⟨u', ran, ⟨shrinks.owns, root.trans grew.root, fun had => ?_,
    ⟨fun vpn above below => ?_, ?_⟩, fun above below => ?_, ?_, (uvmdealloc_pool ran).trans grew.pool⟩, tables⟩
  · rw [tables]
    exact grew.tables had
  · omega
  · exact fun vpn _ => restored vpn
  · omega
  · have kept : before.pagetable.frames ∪ rest ⊆ u'.pagetable.frames ∪ rest := by
      refine Set.union_subset_union_left _ ?_
      rintro f ⟨place, had⟩
      refine ⟨place, ?_⟩
      cases place with
      | root => exact (congrArg some (root.trans grew.root)).trans had
      | table level index =>
          rw [PageTable.frameAt, tables]
          exact grew.tables had
      | leaf vpn =>
          rw [PageTable.frameAt, show u'.pagetable.leaves.lookup vpn = _ from restored vpn]
          exact had
    exact (shrinks.mem.mono kept).trans grew.mem

end Grew

namespace Grew

variable {before next : Uvm} {low high : Nat} {m : Kmem} {pa : Frame}

/-- What was there before still belongs to the table. -/
theorem frames_subset (grew : before.Grew rest low high u) :
    before.pagetable.frames ∪ rest ⊆ u.pagetable.frames ∪ rest := by
  refine Set.union_subset_union_left _ ?_
  rintro f ⟨place, had⟩
  exact ⟨place, grew.frameAt had⟩

/-- A page from `kalloc` is all zeroes once it is mapped, and the other pages are as they were. -/
theorem addedPage {mapped : Bool} (owns : u.Owns rest) (alloc : u.kmem.kalloc = some (pa, m)) (pte : Pte)
    (same : pte.pa = pa) (mapping : mappages ⟨m.setPage pa fun _ => 0, u.pagetable⟩ va pte = .ok (mapped, next)) :
    next.kmem.mem pa = (fun _ => 0) ∧ Set.EqOn next.kmem.mem u.kmem.mem (u.pagetable.frames ∪ rest) := by
  subst same
  obtain ⟨fresh, allocated, mem⟩ := owns.kalloc alloc
  obtain ⟨mem', -⟩ := mappages_spec (u := ⟨m.setPage pte.pa fun _ => 0, u.pagetable⟩)
    (allocated.setPage (f := pte.pa) fun _ => 0) fresh mapping
  constructor
  · rw [mem' (.inr (Set.mem_insert _ rest))]
    exact Function.update_self ..
  · intro f inside
    have apart : f ≠ pte.pa := by
      rintro rfl
      rcases inside with own | others
      · exact allocated.apart _ own (Set.mem_insert _ rest)
      · exact fresh others
    rw [mem' (inside.imp_right (Set.mem_insert_of_mem _)), ← mem inside]
    simp [Kmem.setPage, Function.update_of_ne apart]

/-- The pages that were added are still all zeroes. -/
theorem zeroed_of_untouched (grew : before.Grew rest low high u)
    (untouched : Set.EqOn next.kmem.mem u.kmem.mem (u.pagetable.frames ∪ rest)) {vpn : Nat} (above : low ≤ vpn)
    (below : vpn < high) (found : u.leafAt vpn = some pte) : next.kmem.mem pte.pa = fun _ => 0 := by
  rw [untouched (.inl (frame_of_leaf found))]
  exact grew.zeroed above below found

/-- Where `mappages` finds no page for a table, the page that was to be mapped is freed. -/
theorem unmapped (grew : before.Grew rest low high u) (alloc : u.kmem.kalloc = some (pa, m)) (pte : Pte)
    (is : pte.pa = pa) (mapping : mappages ⟨m.setPage pa fun _ => 0, u.pagetable⟩ va pte = .ok (false, next)) :
    before.Grew rest low high ⟨next.kmem.kfree pa, next.pagetable⟩ := by
  obtain ⟨-, untouched⟩ := addedPage grew.owns alloc pte is mapping
  subst is
  obtain ⟨fresh, allocated, -⟩ := grew.owns.kalloc alloc
  obtain ⟨-, owns', leaves⟩ := mappages_spec (u := ⟨m.setPage pte.pa fun _ => 0, u.pagetable⟩)
    (allocated.setPage (f := pte.pa) fun _ => 0) fresh mapping
  obtain ⟨root, tables⟩ := mappages_tables mapping
  obtain ⟨freed, mem''⟩ := owns'.kfree fresh
  have same : ∀ vpn, next.leafAt vpn = u.leafAt vpn := fun vpn => by
    rw [leafAt, leaves]
  refine { owns := freed, root := root.trans grew.root, tables := fun had => tables (grew.tables had),
           leaves := ⟨fun vpn above below => ?_, fun vpn outside => ?_⟩, zeroed := ?_, mem := ?_, pool := ?_ }
  · obtain ⟨none, pa', found⟩ := grew.leaves.added vpn above below
    exact ⟨none, pa', (same vpn).trans found⟩
  · exact (same vpn).trans (grew.leaves.others vpn outside)
  · intro vpn pte' above below found
    have own : pte'.pa ∈ next.pagetable.frames := frame_of_leaf found
    rw [show (next.kmem.kfree pte.pa).mem pte'.pa = _ from mem'' (.inl own)]
    exact grew.zeroed_of_untouched untouched above below ((same vpn).symm.trans found)
  · intro f inside
    have kept : f ∈ next.pagetable.frames ∪ rest := by
      refine inside.imp_left ?_
      rintro ⟨place, had⟩
      refine ⟨place, ?_⟩
      cases place with
      | root => exact (congrArg some (root.trans grew.root)).trans had
      | table level index => exact tables (grew.tables had)
      | leaf vpn =>
          rw [PageTable.frameAt, leaves]
          exact grew.frameAt had
    exact (mem'' kept).trans ((untouched (grew.frames_subset inside)).trans (grew.mem inside))
  · rw [pool_kfree, ← grew.pool, ← pool_kalloc alloc]
    have pool := mappages_pool mapping
    rw [if_neg Bool.false_ne_true] at pool
    exact congrArg (insert pte.pa) pool

/-- One more page. -/
theorem mapped (grew : before.Grew rest low high u) (ordered : low ≤ high) (alloc : u.kmem.kalloc = some (pa, m))
    (mapping : mappages ⟨m.setPage pa fun _ => 0, u.pagetable⟩ (high * PGSIZE)
      { pa := pa, r := true, w := true, x := true, u := true } = .ok (true, next)) :
    before.Grew rest low (high + 1) next ∧ ∀ vpn, next.leafAt vpn =
      if vpn = high then some { pa := pa, r := true, w := true, x := true, u := true } else u.leafAt vpn := by
  obtain ⟨zero, untouched⟩ := addedPage grew.owns alloc _ rfl mapping
  obtain ⟨fresh, allocated, -⟩ := grew.owns.kalloc alloc
  obtain ⟨-, none, owns', leaves⟩ := mappages_spec (u := ⟨m.setPage pa fun _ => 0, u.pagetable⟩)
    (allocated.setPage (f := pa) fun _ => 0) fresh mapping
  rw [Nat.mul_div_cancel _ (show 0 < PGSIZE by decide)] at none leaves
  have none : u.leafAt high = .none := none
  have leaves : ∀ vpn, next.leafAt vpn =
      if vpn = high then some { pa := pa, r := true, w := true, x := true, u := true } else u.leafAt vpn := leaves
  obtain ⟨root, tables⟩ := mappages_tables mapping
  refine ⟨{ owns := owns', root := root.trans grew.root, tables := fun had => tables (grew.tables had),
            leaves := ⟨fun vpn above below => ?_, fun vpn outside => ?_⟩, zeroed := ?_,
            mem := (untouched.mono grew.frames_subset).trans grew.mem, pool := ?_ }, leaves⟩
  · rw [leaves]
    by_cases same : vpn = high
    · subst same
      rw [if_pos rfl]
      exact ⟨(grew.leaves.others vpn (by omega)).symm.trans none, pa, rfl⟩
    · rw [if_neg same]
      exact grew.leaves.added vpn above (by omega)
  · rw [leaves, if_neg (by omega)]
    exact grew.leaves.others vpn (by omega)
  · intro vpn pte above below found
    rw [leaves] at found
    split at found
    · cases found
      exact zero
    · exact grew.zeroed_of_untouched untouched above (by omega) found
  · rw [mappages_pool mapping, if_pos rfl, ← grew.pool, ← pool_kalloc alloc]
    rfl

end Grew

/-- The loop of `uvmalloc` adds all pages or none, and it returns: a table has no more pages than there are
frames. -/
theorem growPages_grew {before : Uvm} {low high : Nat} (count : Nat) (grew : before.Grew rest low high u)
    (ordered : low ≤ high) (pages : ∀ vpn < high, (u.leafAt vpn).isSome)
    (vacant : ∀ vpn, high ≤ vpn → vpn ≤ 2 ^ 15 → u.leafAt vpn = none) :
    ∃ grown u', growPages (low * PGSIZE) count (high * PGSIZE) u = .ok (grown, u') ∧
      before.Grew rest low (if grown then high + count else low) u' := by
  induction count generalizing u high with
  | zero => exact ⟨true, u, rfl, grew⟩
  | succ count ih =>
      have bound := pages_le _ grew.owns pages
      have top : high * PGSIZE < MAXVA := by
        simp only [PGSIZE, MAXVA]
        omega
      have sizes : low * PGSIZE ≤ high * PGSIZE := Nat.mul_le_mul_right _ ordered
      have small : high * PGSIZE < 2 ^ 64 := top.trans (by norm_num [MAXVA])
      have roundLow := pgRoundUp_mul (lt_of_le_of_lt sizes small)
      have roundHigh := pgRoundUp_mul small
      have goBack : ∀ {t : Uvm}, before.Grew rest low high t →
          ∃ newsz u', t.uvmdealloc (high * PGSIZE) (low * PGSIZE) = .ok (newsz, u') ∧
            before.Grew rest low low u' := by
        intro t grew
        obtain ⟨u', ran, restored, _⟩ := grew.back top.le roundHigh roundLow sizes le_rfl
          (Nat.lt_add_of_pos_right (by decide))
        exact ⟨low * PGSIZE, u', ran, restored⟩
      rw [growPages]
      obtain alloc | ⟨⟨pa, m⟩, alloc⟩ := Option.eq_none_or_eq_some u.kmem.kalloc
      · obtain ⟨newsz, u', ran, restored⟩ := goBack grew
        rw [alloc]
        exact ⟨false, u', bind_ok.mpr ⟨(newsz, u'), ran, rfl⟩, restored⟩
      obtain ⟨fresh, allocated, -⟩ := grew.owns.kalloc alloc
      have here : u.leafAt (high * PGSIZE / PGSIZE) = none := by
        rw [Nat.mul_div_cancel _ (show 0 < PGSIZE by decide)]
        exact vacant high le_rfl bound
      obtain ⟨mapped, next, mapping⟩ := mappages_returns top
        { pa := pa, r := true, w := true, x := true, u := true } (u := ⟨m.setPage pa fun _ => 0, u.pagetable⟩) here
        (allocated.setPage (f := pa) fun _ => 0)
      rw [alloc]
      cases mapped with
      | false =>
          obtain ⟨newsz, u', ran, restored⟩ := goBack (grew.unmapped alloc _ rfl mapping)
          refine ⟨false, u', bind_ok.mpr ⟨(false, next), mapping, ?_⟩, restored⟩
          exact bind_ok.mpr ⟨(newsz, u'), ran, rfl⟩
      | true =>
          obtain ⟨soFar, leaves⟩ := grew.mapped ordered alloc mapping
          have address : high * PGSIZE + PGSIZE = (high + 1) * PGSIZE := by ring
          obtain ⟨grown, u', ran, result⟩ := ih soFar (Nat.le_succ_of_le ordered)
            (fun vpn below => by
              rw [leaves]
              split
              · rfl
              · exact pages vpn (by omega))
            (fun vpn above small => by
              rw [leaves, if_neg (by omega)]
              exact vacant vpn (by omega) small)
          refine ⟨grown, u', bind_ok.mpr ⟨(true, next), mapping, ?_⟩, ?_⟩
          · simp only [if_true]
            rw [address]
            exact ran
          · rwa [show high + (count + 1) = high + 1 + count by ring]

/-- The user pages are those of `[0, PGROUNDUP(sz))`. -/
def ExactPages (u : Uvm) (sz : Nat) : Prop := ∀ vpn, (u.leafAt vpn).isSome ↔ vpn * PGSIZE < sz

/-- A page of `u'` that `u` does not have. -/
def NewPage (u u' : Uvm) (vpn : Nat) (pte : Pte) : Prop := u.leafAt vpn = none ∧ u'.leafAt vpn = some pte

/-- `uvmalloc` has mapped new pages up to `newsz`, and `uvmdealloc` can take them away again. -/
structure Allocated (u : Uvm) (oldsz newsz : Nat) (u' : Uvm) : Prop where
  pages : u'.ExactPages newsz
  rights : ∀ vpn pte, u.NewPage u' vpn pte →
    pte = { pa := pte.pa, r := true, w := true, x := true, u := true }
  fresh : ∀ vpn pte, u.NewPage u' vpn pte → pte.pa ∈ u.kmem.freelist
  zeroed : ∀ vpn pte, u.NewPage u' vpn pte → u'.kmem.mem pte.pa = fun _ => 0
  distinct : u'.pagetable.Distinct
  undo : ∃ u'', u'.uvmdealloc newsz oldsz = .ok (oldsz, u'') ∧ (∀ vpn, u''.leafAt vpn = u.leafAt vpn) ∧
    ∀ f, f ∈ u''.kmem.freelist ↔ f ∈ u'.kmem.freelist ∨ ∃ vpn pte, u.NewPage u' vpn pte ∧ pte.pa = f

/-- `uvmalloc` has failed: of the frames that were free, only pages of the table's own are not free now. -/
structure Restored (u u' : Uvm) : Prop where
  leaves : ∀ vpn, u'.leafAt vpn = u.leafAt vpn
  free : ∀ f ∈ u.kmem.freelist, f ∈ u'.kmem.freelist ∨ ∃ level index,
    u.pagetable.frameAt (.table level index) = none ∧ u'.pagetable.frameAt (.table level index) = some f

/-- The mappings of `u`, with what is in their pages. -/
def KeepsPages (u u' : Uvm) : Prop :=
  ∀ vpn pte, u.leafAt vpn = some pte → u'.leafAt vpn = some pte ∧ u'.kmem.mem pte.pa = u.kmem.mem pte.pa

namespace Grew

variable {before : Uvm} {low high : Nat}

theorem keepsPages (grew : before.Grew rest low high u) : before.KeepsPages u := fun _ _ found =>
  ⟨grew.leaf found, grew.mem (.inl (frame_of_leaf found))⟩

theorem newPage (grew : before.Grew rest low high u) {vpn : Nat} (new : before.NewPage u vpn pte) :
    low ≤ vpn ∧ vpn < high := by
  by_contra outside
  have same := grew.leaves.others vpn outside
  rw [new.1, new.2] at same
  cases same

theorem restored (grew : before.Grew rest low low u) (owns : before.Owns rest) : before.Restored u := by
  refine ⟨fun vpn => grew.leaves.others vpn (by omega), fun f free => ?_⟩
  have inside : f ∈ u.pool := by
    rw [grew.pool]
    exact .inl free
  rcases inside with free' | ⟨place, had⟩
  · exact .inl free'
  obtain vacant | ⟨g, old⟩ := Option.eq_none_or_eq_some (before.pagetable.frameAt place)
  · cases place with
    | root => cases vacant
    | table level index => exact .inr ⟨level, index, vacant, had⟩
    | leaf vpn =>
        have same : u.pagetable.leaves.lookup vpn = _ := grew.leaves.others vpn (by omega)
        rw [PageTable.frameAt, same] at had
        cases vacant.symm.trans had
  · cases (grew.frameAt old).symm.trans had
    exact absurd free (owns.not_free ⟨place, old⟩)

/-- What is taken away again becomes free, and nothing else. -/
theorem freed {back : Uvm} (grew : before.Grew rest low high u) (again : before.Grew rest low low back)
    (tables : back.pagetable.tables = u.pagetable.tables) {f : Frame} :
    f ∈ back.kmem.freelist ↔
      f ∈ u.kmem.freelist ∨ ∃ vpn pte, before.NewPage u vpn pte ∧ pte.pa = f := by
  -- the frames of both tables together with the free ones are the same
  have pool : f ∈ back.pool ↔ f ∈ u.pool := by rw [again.pool, grew.pool]
  have leaves : ∀ vpn, back.leafAt vpn = before.leafAt vpn := fun vpn => again.leaves.others vpn (by omega)
  constructor
  · intro free
    rcases pool.mp (.inl free) with free' | ⟨place, had⟩
    · exact .inl free'
    right
    cases place with
    | root =>
        refine absurd free (again.owns.not_free ⟨.root, ?_⟩)
        rw [← had, PageTable.frameAt, PageTable.frameAt, again.root, grew.root]
    | table level index =>
        refine absurd free (again.owns.not_free ⟨.table level index, ?_⟩)
        rwa [PageTable.frameAt, tables]
    | leaf vpn =>
        obtain ⟨pte, found, rfl⟩ := Option.map_eq_some_iff.mp had
        obtain none | ⟨pte', found'⟩ := Option.eq_none_or_eq_some (before.leafAt vpn)
        · exact ⟨vpn, pte, ⟨none, found⟩, rfl⟩
        · cases (grew.leaf found').symm.trans found
          exact absurd free (again.owns.not_free (frame_of_leaf (again.leaf found')))
  · rintro (free' | ⟨vpn, pte, new, rfl⟩)
    · rcases pool.mpr (.inl free') with free | ⟨place, had⟩
      · exact free
      refine absurd free' (grew.owns.not_free ⟨place, ?_⟩)
      cases place with
      | root => rw [← had, PageTable.frameAt, PageTable.frameAt, again.root, grew.root]
      | table level index => rwa [PageTable.frameAt, tables] at had
      | leaf vpn =>
          obtain ⟨pte, found, rfl⟩ := Option.map_eq_some_iff.mp had
          exact Option.map_eq_some_iff.mpr ⟨pte, grew.leaf ((leaves vpn).symm.trans found), rfl⟩
    · rcases pool.mpr (.inr (frame_of_leaf new.2)) with free | ⟨place, had⟩
      · exact free
      have here : u.pagetable.frameAt (.leaf vpn) = some pte.pa :=
        Option.map_eq_some_iff.mpr ⟨pte, new.2, rfl⟩
      cases place with
      | root =>
          rw [PageTable.frameAt, again.root, ← grew.root] at had
          cases grew.owns.distinct (show u.pagetable.frameAt .root = _ from had) here
      | table level index =>
          rw [PageTable.frameAt, tables] at had
          cases grew.owns.distinct (show u.pagetable.frameAt (.table level index) = _ from had) here
      | leaf vpn' =>
          obtain ⟨pte', found, same⟩ := Option.map_eq_some_iff.mp had
          have kept := (leaves vpn').symm.trans found
          have there : u.pagetable.frameAt (.leaf vpn') = some pte.pa :=
            Option.map_eq_some_iff.mpr ⟨pte', grew.leaf kept, same⟩
          cases grew.owns.distinct there here
          cases new.1.symm.trans kept

end Grew

/-- The number of pages of a process of size `sz`. -/
def pageCount (sz : Nat) : Nat := (sz + PGSIZE - 1) / PGSIZE

theorem lt_pageCount {vpn sz : Nat} : vpn < pageCount sz ↔ vpn * PGSIZE < sz := by
  unfold pageCount
  simp only [PGSIZE]
  omega

theorem pgRoundUp_eq {sz : Nat} (small : pageCount sz ≤ 2 ^ 15) : pgRoundUp sz = pageCount sz * PGSIZE := by
  unfold pageCount at *
  unfold pgRoundUp pgRoundDown
  simp only [PGSIZE] at small ⊢
  omega

/-- The pages that the loop of `uvmalloc` adds. -/
theorem pageCount_add {oldsz newsz : Nat} (more : oldsz ≤ newsz) :
    pageCount oldsz + (newsz - pageCount oldsz * PGSIZE + PGSIZE - 1) / PGSIZE = pageCount newsz := by
  unfold pageCount
  simp only [PGSIZE]
  omega

/-- `uvmalloc` of a table that has the pages below `oldsz`, and no others up to 128 MB. -/
theorem uvmalloc_grew {oldsz newsz : Nat} (owns : u.Owns rest)
    (exact : ∀ vpn ≤ 2 ^ 15, (u.leafAt vpn).isSome ↔ vpn * PGSIZE < oldsz) (more : oldsz ≤ newsz) :
    ∃ (grown : Bool) (u' : Uvm), u.uvmalloc oldsz newsz = .ok (if grown then newsz else 0, u') ∧
      pageCount oldsz ≤ 2 ^ 15 ∧
      u.Grew rest (pageCount oldsz) (if grown then pageCount newsz else pageCount oldsz) u' := by
  have bound : pageCount oldsz ≤ 2 ^ 15 := by
    by_contra large
    have last := u.pages_le owns (n := 2 ^ 15 + 1) fun vpn small =>
      (exact vpn (by omega)).mpr (lt_pageCount.mp (by omega))
    omega
  have old : ∀ vpn < pageCount oldsz, (u.leafAt vpn).isSome := fun vpn small =>
    (exact vpn (by omega)).mpr (lt_pageCount.mp small)
  have vacant : ∀ vpn, pageCount oldsz ≤ vpn → vpn ≤ 2 ^ 15 → u.leafAt vpn = none := by
    intro vpn above small
    rw [← Option.not_isSome_iff_eq_none, exact vpn small, ← lt_pageCount]
    omega
  obtain ⟨grown, u', ran, grew⟩ := growPages_grew
    ((newsz - pageCount oldsz * PGSIZE + PGSIZE - 1) / PGSIZE) (Grew.refl owns (pageCount oldsz)) le_rfl old vacant
  rw [pageCount_add more] at grew
  refine ⟨grown, u', ?_, bound, grew⟩
  rw [uvmalloc, if_neg (not_lt.mpr more)]
  simp only [pgRoundUp_eq bound]
  exact bind_ok.mpr ⟨(grown, u'), ran, rfl⟩

/-- After `uvmalloc` has succeeded, `uvmdealloc` to the old size takes the new pages away. -/
theorem Grew.undo {before : Uvm} {oldsz newsz : Nat}
    (grew : before.Grew rest (pageCount oldsz) (pageCount newsz) u) (more : oldsz ≤ newsz)
    (small : pageCount oldsz ≤ 2 ^ 15) (old : ∀ vpn < pageCount oldsz, (before.leafAt vpn).isSome) :
    ∃ u', u.uvmdealloc newsz oldsz = .ok (oldsz, u') ∧
      before.Grew rest (pageCount oldsz) (pageCount oldsz) u' ∧ u'.pagetable.tables = u.pagetable.tables := by
  have bound : pageCount newsz ≤ 2 ^ 15 := u.pages_le grew.owns fun vpn below => by
    by_cases new : pageCount oldsz ≤ vpn
    · obtain ⟨_, pa, found⟩ := grew.leaves.added vpn new below
      exact Option.isSome_iff_exists.mpr ⟨_, found⟩
    · rw [grew.leaves.others vpn (by omega)]
      exact old vpn (by omega)
  have top : pageCount newsz * PGSIZE ≤ MAXVA := by
    simp only [PGSIZE, MAXVA]
    omega
  have last : newsz ≤ pageCount newsz * PGSIZE ∧ pageCount newsz * PGSIZE < newsz + PGSIZE := by
    unfold pageCount
    simp only [PGSIZE]
    omega
  exact grew.back top (pgRoundUp_eq bound) (pgRoundUp_eq small) more last.1 last.2

/-- What `uvmalloc` has done when it has added all pages. -/
theorem Grew.allocated {oldsz newsz : Nat} (grew : u.Grew rest (pageCount oldsz) (pageCount newsz) u')
    (exact : u.ExactPages oldsz) (more : oldsz ≤ newsz) (small : pageCount oldsz ≤ 2 ^ 15) :
    u.Allocated oldsz newsz u' := by
  have old : ∀ vpn < pageCount oldsz, (u.leafAt vpn).isSome := fun vpn below =>
    (exact vpn).mpr (lt_pageCount.mp below)
  have ordered : pageCount oldsz ≤ pageCount newsz := by
    unfold pageCount
    simp only [PGSIZE]
    omega
  obtain ⟨u'', back, again, tables⟩ := grew.undo more small old
  refine ⟨fun vpn => ?_, fun vpn pte new => ?_, fun vpn pte new => ?_, fun vpn pte new => ?_,
    grew.owns.distinct, u'', back, fun vpn => again.leaves.others vpn (by omega), fun f => ?_⟩
  · by_cases inside : pageCount oldsz ≤ vpn ∧ vpn < pageCount newsz
    · obtain ⟨_, pa, found⟩ := grew.leaves.added vpn inside.1 inside.2
      simp [found, ← lt_pageCount, inside.2]
    · rw [grew.leaves.others vpn inside, exact, ← lt_pageCount, ← lt_pageCount]
      omega
  · obtain ⟨above, below⟩ := grew.newPage new
    obtain ⟨_, pa, found⟩ := grew.leaves.added vpn above below
    cases new.2.symm.trans found
    rfl
  · exact grew.fresh (grew.newPage new).1 (grew.newPage new).2 new.2
  · exact grew.zeroed (grew.newPage new).1 (grew.newPage new).2 new.2
  · exact grew.freed again tables

/-- A table with its root only, and three free frames. -/
def emptyTable : Uvm :=
  ⟨⟨[524289, 524290, 524291], fun f => if f = 524288 then 1 else 0, fun _ _ => 0⟩, ⟨524288, ∅, ∅⟩⟩

theorem emptyTable_owns : emptyTable.Owns ∅ := by
  have frames : ∀ f ∈ emptyTable.pagetable.frames, f = 524288 := by
    rintro f ⟨place, had⟩
    cases place with
    | root => exact (Option.some.inj had).symm
    | table level index => cases had
    | leaf vpn => cases had
  refine ⟨⟨?_, by decide, ?_⟩, ?_, fun f _ => Set.notMem_empty f⟩
  · rintro f (own | none)
    · rw [frames f own]
      exact ⟨rfl, by simp [Managed, KERNBASE, PHYSTOP, PGSIZE]⟩
    · exact absurd none (Set.notMem_empty f)
  · intro f free
    have cases : f = 524289 ∨ f = 524290 ∨ f = 524291 := by simpa [emptyTable] using free
    rcases cases with rfl | rfl | rfl <;> exact ⟨rfl, by simp [Managed, KERNBASE, PHYSTOP, PGSIZE]⟩
  · intro place place' f had had'
    cases place with
    | root =>
        cases place' with
        | root => rfl
        | table level index => cases had'
        | leaf vpn => cases had'
    | table level index => cases had
    | leaf vpn => cases had

end Uvm

end Riscv2os.Xv7
