import Riscv2os.Xv7.VmFrames

/-!
# What the functions on a user page table do to it

For `uvmunmap`, `mmap_dedup`, `uvmalloc`, `uvmcopy`, `freewalk` and `copyout`: which
entries the table has afterwards, that it still owns its frames, and that the frames
of others keep their content.
-/

namespace Riscv2os.Xv7

open Riscv2os.Std

namespace Uvm

variable {u u' u'' : Uvm} {m m' : Kmem} {pte : Pte} {rest : Set Frame} {va : Nat}

/-- The last page of the range of `uvmunmap`. -/
def unmapLast (va size : Nat) : Nat := (va + size + 2 ^ 64 - 1) % 2 ^ 64 / PGSIZE

theorem pgRoundDown_div (va : Nat) : pgRoundDown va / PGSIZE = va / PGSIZE :=
  Nat.mul_div_cancel _ (by decide)

/-- `uvmunmap` with `do_free`. -/
theorem uvmunmap_shrinks {size : Nat} (owns : u.Owns rest)
    (ran : u.uvmunmap va size true = .ok u') :
    u.Shrinks u' rest ∧
      ∀ vpn, u'.leafAt vpn =
        if va / PGSIZE ≤ vpn ∧ vpn < va / PGSIZE + (unmapLast va size - va / PGSIZE + 1) then none
        else u.leafAt vpn := by
  obtain ⟨shrinks, _, leaves⟩ := unmapPages_shrinks owns ran
  rw [pgRoundDown_div] at leaves
  exact ⟨shrinks, leaves⟩

/-- A page of a mapping is unmapped and freed. At an address in the middle of a page the
next page is unmapped as well, and its frame lost. -/
theorem dropPage_shrinks (owns : u.Owns rest) (found : u.leafAt (va / PGSIZE) = some pte)
    (ran : u.dropPage va pte.pa = .ok u') :
    u.Shrinks u' rest ∧
      ∀ vpn, u'.leafAt vpn =
        if vpn = va / PGSIZE ∨ va % PGSIZE ≠ 0 ∧ vpn = va / PGSIZE + 1 then none
        else u.leafAt vpn := by
  rw [dropPage, bind_ok] at ran
  obtain ⟨cleared, unmapped, ran⟩ := ran
  cases ran
  rw [uvmunmap, unmapPages, bind_ok] at unmapped
  obtain ⟨next, first, unmapped⟩ := unmapped
  have low : pgRoundDown va < MAXVA := by
    rw [unmapPage, bind_ok] at first
    obtain ⟨_, walked, _⟩ := first
    unfold PageTable.walk at walked
    split at walked
    · cases walked
    · omega
  have last : (va + PGSIZE + 2 ^ 64 - 1) % 2 ^ 64 / PGSIZE - va / PGSIZE =
      if va % PGSIZE = 0 then 0 else 1 := by
    unfold pgRoundDown at low
    simp only [PGSIZE, MAXVA] at low ⊢
    split <;> omega
  rw [last] at unmapped
  obtain ⟨pte', found', fresh, lost, kmem, frames, leaves⟩ := unmapPage_spec owns first
  rw [pgRoundDown_div] at found' leaves
  rw [found] at found'
  cases found'
  obtain ⟨owns', kmem', frames', leaves'⟩ := unmapPages_loses lost unmapped
  rw [Nat.add_div_right _ (by decide), pgRoundDown_div] at leaves'
  have derefs : cleared.kmem.kderef pte.pa = cleared.kmem.kfree pte.pa :=
    owns'.keeps.kderef_eq (.inr (Set.mem_insert pte.pa rest))
  rw [derefs]
  obtain ⟨freed, mem⟩ := owns'.kfree fresh
  have same : cleared.kmem = u.kmem := kmem'.trans kmem
  refine ⟨⟨freed, ?_, frames'.trans frames⟩, fun vpn => ?_⟩
  · rw [← same]
    exact mem
  · change cleared.leafAt vpn = _
    rw [leaves', leaves]
    by_cases aligned : va % PGSIZE = 0 <;> simp only [aligned, if_true, if_false] <;>
      split_ifs <;> first | rfl | omega

/-- What one round of `mmap_dedup` does to the table. -/
private theorem dedupPage_shrinks (owns : u.Owns rest)
    (ran : (do
      match ← u.pagetable.walk va with
      | some pte => u.dropPage va pte.pa
      | none => return u) = Except.ok u') :
    u.Shrinks u' rest ∧ (∀ vpn, u'.leafAt vpn = none ∨ u'.leafAt vpn = u.leafAt vpn) ∧
      ∀ vpn < va / PGSIZE, u'.leafAt vpn = u.leafAt vpn := by
  rw [bind_ok] at ran
  obtain ⟨entry, walked, ran⟩ := ran
  have found : u.leafAt (va / PGSIZE) = entry := by
    unfold PageTable.walk at walked
    split at walked
    · cases walked
    · exact Except.ok.inj walked
  cases entry with
  | none =>
      cases ran
      exact ⟨.refl owns, fun vpn => .inr rfl, fun vpn _ => rfl⟩
  | some pte =>
      obtain ⟨shrinks, leaves⟩ := dropPage_shrinks owns found ran
      refine ⟨shrinks, fun vpn => ?_, fun vpn below => ?_⟩
      · rw [leaves]
        split
        · exact .inl rfl
        · exact .inr rfl
      · rw [leaves, if_neg (by omega)]

/-- The addresses of a loop over the pages of a range. -/
theorem mem_pagesBetween {start stop : Nat} (listed : va ∈ pagesBetween start stop) :
    start ≤ va ∧ va < stop ∧ va % PGSIZE = start % PGSIZE := by
  simp only [pagesBetween, List.mem_map, List.mem_range] at listed
  obtain ⟨i, small, rfl⟩ := listed
  simp only [PGSIZE] at small ⊢
  omega

/-- `mmap_dedup` takes entries away and changes none, and it does not get below the
mapping. -/
theorem mmapDedup_shrinks {map : MapInfo} (owns : u.Owns rest) (ran : u.mmapDedup map = .ok u') :
    u.Shrinks u' rest ∧ (∀ vpn, u'.leafAt vpn = none ∨ u'.leafAt vpn = u.leafAt vpn) ∧
      ∀ vpn < map.vstart / PGSIZE, u'.leafAt vpn = u.leafAt vpn := by
  refine (foldlM_rule (fun rounds t => (∀ va ∈ rounds, map.vstart ≤ va) ∧ u.Shrinks t rest ∧
    (∀ vpn, t.leafAt vpn = none ∨ t.leafAt vpn = u.leafAt vpn) ∧
    ∀ vpn < map.vstart / PGSIZE, t.leafAt vpn = u.leafAt vpn) ?_
    ⟨fun va listed => (mem_pagesBetween listed).1, .refl owns, fun _ => .inr rfl, fun _ _ => rfl⟩
    ran).2
  rintro va rounds t next ⟨above, shrinks, leaves, below⟩ ran
  obtain ⟨shrinks', leaves', below'⟩ := dedupPage_shrinks shrinks.owns ran
  refine ⟨fun va' later => above va' (List.mem_cons_of_mem va later), shrinks.trans shrinks',
    fun vpn => ?_, fun vpn low => ?_⟩
  · rcases leaves' vpn with gone | same
    · exact .inl gone
    · rw [same]
      exact leaves vpn
  · have first := above va List.mem_cons_self
    have page : map.vstart / PGSIZE ≤ va / PGSIZE := Nat.div_le_div_right first
    rw [below' vpn (lt_of_lt_of_le low page), below vpn low]

/-- Where the table has no entry for a page of the mapping, `mmap_dup` does nothing. -/
theorem mmapDup_none {map : MapInfo}
    (vacant : ∀ va, map.vstart ≤ va → va < map.vend → u.pagetable.lookup va = none)
    (ran : u.mmapDup map = .ok u') : u' = u := by
  refine foldlM_rule (fun rounds t => (∀ va ∈ rounds, map.vstart ≤ va ∧ va < map.vend) ∧ t = u)
    ?_ ⟨?_, rfl⟩ ran |>.2
  · rintro va rounds _ next ⟨inside, rfl⟩ ran
    refine ⟨fun va' later => inside va' (List.mem_cons_of_mem va later), ?_⟩
    rw [bind_ok] at ran
    obtain ⟨entry, walked, ran⟩ := ran
    unfold PageTable.walk at walked
    split at walked
    · cases walked
    obtain ⟨low, high⟩ := inside va List.mem_cons_self
    rw [vacant va low high] at walked
    cases walked
    cases ran
    rfl
  · intro va listed
    obtain ⟨low, high, _⟩ := mem_pagesBetween listed
    exact ⟨low, high⟩

/-- The table `u` has the entries of `before` and pages with all rights between the page
numbers `low` and `high`, where there were none. -/
structure Grown (before : Nat → Option Pte) (low high : Nat) (u : Uvm) : Prop where
  added : ∀ vpn, low ≤ vpn → vpn < high →
    before vpn = none ∧ ∃ pa, u.leafAt vpn = some { pa := pa, r := true, w := true, x := true, u := true }
  others : ∀ vpn, ¬ (low ≤ vpn ∧ vpn < high) → u.leafAt vpn = before vpn

/-- What the failure of `uvmalloc` takes back. -/
private theorem takeBack {before : Nat → Option Pte} {low high newsz : Nat} (owns : u.Owns rest)
    (grown : u.Grown before low high) (ordered : low ≤ high) (small : high * PGSIZE < 2 ^ 64)
    (ran : u.uvmdealloc (high * PGSIZE) (low * PGSIZE) = .ok (newsz, u')) :
    u.Shrinks u' rest ∧ ∀ vpn, u'.leafAt vpn = before vpn := by
  have roundUp : ∀ n, n * PGSIZE < 2 ^ 64 → pgRoundUp (n * PGSIZE) = n * PGSIZE := by
    intro n small
    unfold pgRoundUp pgRoundDown
    simp only [PGSIZE] at small ⊢
    omega
  have lowSmall : low * PGSIZE < 2 ^ 64 :=
    lt_of_le_of_lt (Nat.mul_le_mul_right PGSIZE ordered) small
  unfold uvmdealloc at ran
  simp only [roundUp low lowSmall, roundUp high small] at ran
  split at ran
  · next empty =>
    cases ran
    have same : high = low := by
      simp only [PGSIZE] at empty
      omega
    subst same
    exact ⟨.refl owns, fun vpn => grown.others vpn (by omega)⟩
  next more =>
  rw [if_pos (not_le.mp more), bind_ok] at ran
  obtain ⟨cleared, unmapped, ran⟩ := ran
  cases ran
  obtain ⟨shrinks, leaves⟩ := uvmunmap_shrinks owns unmapped
  refine ⟨shrinks, fun vpn => ?_⟩
  have range : low * PGSIZE / PGSIZE = low ∧
      unmapLast (low * PGSIZE) (high * PGSIZE - low * PGSIZE) = high - 1 := by
    unfold unmapLast
    simp only [PGSIZE] at more small ⊢
    omega
  rw [leaves, range.1, range.2]
  simp only [PGSIZE] at more
  split
  · next inside => exact (grown.added vpn (by omega) (by omega)).1.symm
  · next outside => exact grown.others vpn (by omega)

/-- The loop of `uvmalloc` adds all pages or none. -/
theorem growPages_spec {before : Nat → Option Pte} {low high count : Nat} {grown : Bool}
    (owns : u.Owns rest) (soFar : u.Grown before low high) (ordered : low ≤ high)
    (small : (high + count) * PGSIZE ≤ 2 ^ 64)
    (ran : growPages (low * PGSIZE) count (high * PGSIZE) u = .ok (grown, u')) :
    u'.Owns rest ∧ Set.EqOn u'.kmem.mem u.kmem.mem rest ∧
      if grown then u'.Grown before low (high + count) else ∀ vpn, u'.leafAt vpn = before vpn := by
  induction count generalizing u high with
  | zero =>
      cases ran
      exact ⟨owns, fun _ _ => rfl, soFar⟩
  | succ count ih =>
      have inside : high * PGSIZE < 2 ^ 64 := by
        simp only [PGSIZE] at small ⊢
        omega
      rw [growPages] at ran
      split at ran
      · rw [bind_ok] at ran
        obtain ⟨⟨newsz, back⟩, dealloc, ran⟩ := ran
        cases ran
        obtain ⟨shrinks, leaves⟩ := takeBack owns soFar ordered inside dealloc
        exact ⟨shrinks.owns, shrinks.mem.mono Set.subset_union_right, leaves⟩
      next pa m alloc =>
      obtain ⟨fresh, allocated, mem⟩ := owns.kalloc alloc
      rw [bind_ok] at ran
      obtain ⟨⟨mapped, next⟩, mapping, ran⟩ := ran
      obtain ⟨mem', spec⟩ := mappages_spec (allocated.setPage (f := pa) fun _ => 0) fresh mapping
      have untouched : Set.EqOn next.kmem.mem u.kmem.mem rest := by
        intro f others
        have apart : f ≠ pa := by
          rintro rfl
          exact fresh others
        rw [mem' (.inr (Set.mem_insert_of_mem pa others)), ← mem (.inr others)]
        simp [Kmem.setPage, Function.update_of_ne apart]
      rw [Nat.mul_div_cancel _ (show 0 < PGSIZE by decide)] at spec
      cases mapped with
      | false =>
          obtain ⟨owns', leaves⟩ := spec
          simp only [Bool.false_eq_true, if_false, bind_ok] at ran
          obtain ⟨⟨newsz, back⟩, dealloc, ran⟩ := ran
          cases ran
          obtain ⟨freed, mem''⟩ := owns'.kfree fresh
          have soFar' : (⟨next.kmem.kfree pa, next.pagetable⟩ : Uvm).Grown before low high := by
            constructor
            · simpa [leafAt, leaves] using soFar.added
            · simpa [leafAt, leaves] using soFar.others
          obtain ⟨shrinks, leaves'⟩ := takeBack freed soFar' ordered inside dealloc
          refine ⟨shrinks.owns, ?_, leaves'⟩
          exact (shrinks.mem.mono Set.subset_union_right).trans
            ((mem''.mono Set.subset_union_right).trans untouched)
      | true =>
          obtain ⟨vacant, owns', leaves⟩ := spec
          simp only [if_true] at ran
          have soFar' : next.Grown before low (high + 1) := by
            constructor
            · intro vpn above below
              by_cases same : vpn = high
              · subst same
                rw [leaves, if_pos rfl]
                exact ⟨(soFar.others vpn (by omega)).symm.trans vacant, pa, rfl⟩
              · rw [leaves, if_neg same]
                exact soFar.added vpn above (by omega)
            · intro vpn outside
              rw [leaves, if_neg (by omega)]
              exact soFar.others vpn (by omega)
          have address : high * PGSIZE + PGSIZE = (high + 1) * PGSIZE := by ring
          rw [address] at ran
          have sum : high + 1 + count = high + (count + 1) := by ring
          obtain ⟨owns'', mem'', result⟩ := ih owns' soFar' (Nat.le_succ_of_le ordered)
            (sum ▸ small) ran
          rw [sum] at result
          exact ⟨owns'', mem''.trans untouched, result⟩

/-- The pages from `oldsz` to `newsz` are added, or nothing changes but pages of the
table's own. -/
theorem uvmalloc_spec {oldsz newsz sz : Nat} (owns : u.Owns rest) (small : newsz < 2 ^ 64)
    (ran : u.uvmalloc oldsz newsz = .ok (sz, u')) :
    u'.Owns rest ∧ Set.EqOn u'.kmem.mem u.kmem.mem rest ∧
      ((newsz < oldsz ∧ sz = oldsz ∨ sz = 0) ∧ (∀ vpn, u'.leafAt vpn = u.leafAt vpn) ∨
        oldsz ≤ newsz ∧ sz = newsz ∧ u'.Grown u.leafAt (pgRoundUp oldsz / PGSIZE)
          (max (pgRoundUp oldsz / PGSIZE) ((newsz + PGSIZE - 1) / PGSIZE))) := by
  unfold uvmalloc at ran
  split at ran
  · next less =>
    cases ran
    exact ⟨owns, fun _ _ => rfl, .inl ⟨.inl ⟨less, rfl⟩, fun _ => rfl⟩⟩
  next more =>
  rw [bind_ok] at ran
  obtain ⟨⟨grown, next⟩, grew, ran⟩ := ran
  cases ran
  have start : pgRoundUp oldsz = pgRoundUp oldsz / PGSIZE * PGSIZE := by
    unfold pgRoundUp pgRoundDown
    simp only [PGSIZE]
    omega
  obtain ⟨low, isLow⟩ : ∃ low, low = pgRoundUp oldsz / PGSIZE := ⟨_, rfl⟩
  rw [← isLow] at start ⊢
  rw [start] at grew
  have bound : (low + (newsz - low * PGSIZE + PGSIZE - 1) / PGSIZE) * PGSIZE ≤ 2 ^ 64 ∧
      low + (newsz - low * PGSIZE + PGSIZE - 1) / PGSIZE =
        max low ((newsz + PGSIZE - 1) / PGSIZE) := by
    have : pgRoundUp oldsz ≤ 2 ^ 64 := by
      unfold pgRoundUp pgRoundDown
      simp only [PGSIZE]
      omega
    rw [start] at this
    simp only [PGSIZE] at this ⊢
    omega
  obtain ⟨owns', mem, result⟩ := growPages_spec  owns
    ⟨fun vpn above below => by omega, fun vpn _ => rfl⟩ le_rfl bound.1 grew
  rw [bound.2] at result
  cases grown with
  | false => exact ⟨owns', mem, .inl ⟨.inr rfl, result⟩⟩
  | true => exact ⟨owns', mem, .inr ⟨not_lt.mp more, rfl, result⟩⟩

/-- The first `n` pages of a table are copies of those of `old`, and it has no others. -/
structure CopyOf (old : PageTable) (n : Nat) (u : Uvm) : Prop where
  copied : ∀ vpn < n, ∃ pte pa, old.leaves.lookup vpn = some pte ∧
    u.leafAt vpn = some { pte with pa := pa } ∧ u.kmem.mem pa = u.kmem.mem pte.pa
  others : ∀ vpn, n ≤ vpn → u.leafAt vpn = none

/-- The failure of `uvmcopy` takes all pages back. -/
private theorem dropCopies {old : PageTable} {n : Nat} (owns : u.Owns rest)
    (copies : u.CopyOf old n) (small : n * PGSIZE < MAXVA)
    (ran : u.uvmunmap 0 (n * PGSIZE) true = .ok u') :
    u.Shrinks u' rest ∧ ∀ vpn, u'.leafAt vpn = none := by
  obtain ⟨shrinks, leaves⟩ := uvmunmap_shrinks owns ran
  refine ⟨shrinks, fun vpn => ?_⟩
  rw [leaves]
  split
  · rfl
  next outside =>
  apply copies.others
  by_contra below
  apply outside
  unfold unmapLast
  simp only [PGSIZE, MAXVA] at small ⊢
  omega

/-- The loop of `uvmcopy` copies all pages or leaves none. -/
theorem copyPages_spec {old : PageTable} {count i : Nat} {copied : Bool}
    (parent : old.frames ⊆ rest) (owns : u.Owns rest) (copies : u.CopyOf old i)
    (ran : copyPages old count i u = .ok (copied, u')) :
    u'.Owns rest ∧ Set.EqOn u'.kmem.mem u.kmem.mem rest ∧
      if copied then u'.CopyOf old (i + count) else ∀ vpn, u'.leafAt vpn = none := by
  induction count generalizing u i with
  | zero =>
      cases ran
      exact ⟨owns, fun _ _ => rfl, copies⟩
  | succ count ih =>
      rw [copyPages, bind_ok] at ran
      obtain ⟨entry, walked, ran⟩ := ran
      obtain ⟨small, found⟩ : i * PGSIZE < MAXVA ∧ old.leaves.lookup i = entry := by
        unfold PageTable.walk at walked
        split at walked
        · cases walked
        · next low =>
          have := Except.ok.inj walked
          rw [PageTable.lookup, Nat.mul_div_cancel _ (show 0 < PGSIZE by decide)] at this
          exact ⟨not_le.mp low, this⟩
      cases entry with
      | none =>
          simp only at ran
          split at ran <;> cases ran
      | some pte =>
          simp only at ran
          have source : pte.pa ∈ rest := parent ⟨.leaf i, by simp [PageTable.frameAt, found]⟩
          split at ran
          · rw [bind_ok] at ran
            obtain ⟨back, unmapped, ran⟩ := ran
            cases ran
            obtain ⟨shrinks, leaves⟩ := dropCopies owns copies small unmapped
            exact ⟨shrinks.owns, shrinks.mem.mono Set.subset_union_right, leaves⟩
          next pa m alloc =>
          obtain ⟨fresh, allocated, mem⟩ := owns.kalloc alloc
          rw [bind_ok] at ran
          obtain ⟨⟨mapped, next⟩, mapping, ran⟩ := ran
          have filled : (⟨m.setPage pa (m.mem pte.pa), u.pagetable⟩ : Uvm).Owns
              (insert ({ pte with pa := pa } : Pte).pa rest) :=
            allocated.setPage (f := pa) (m.mem pte.pa)
          obtain ⟨mem', spec⟩ := mappages_spec filled fresh mapping
          have own : pa ∉ u.pagetable.frames ∪ rest := by
            rintro (own | others)
            · exact allocated.apart pa own (Set.mem_insert pa rest)
            · exact fresh others
          have untouched : Set.EqOn next.kmem.mem u.kmem.mem (u.pagetable.frames ∪ rest) := by
            intro f inside
            have apart : f ≠ pa := by
              rintro rfl
              exact own inside
            rw [mem' (inside.imp_right (Set.mem_insert_of_mem pa)), ← mem inside]
            simp [Kmem.setPage, Function.update_of_ne apart]
          have content : next.kmem.mem pa = next.kmem.mem pte.pa := by
            rw [mem' (.inr (Set.mem_insert pa rest)), untouched (.inr source), ← mem (.inr source)]
            simp [Kmem.setPage]
          rw [Nat.mul_div_cancel _ (show 0 < PGSIZE by decide)] at spec
          cases mapped with
          | false =>
              obtain ⟨owns', leaves⟩ := spec
              simp only [Bool.false_eq_true, if_false, bind_ok] at ran
              obtain ⟨back, unmapped, ran⟩ := ran
              cases ran
              obtain ⟨freed, mem''⟩ := owns'.kfree fresh
              have copies' : (⟨next.kmem.kfree pa, next.pagetable⟩ : Uvm).CopyOf old i := by
                constructor
                · intro vpn below
                  obtain ⟨pte', pa', found', leaf', content'⟩ := copies.copied vpn below
                  have inside : pa' ∈ u.pagetable.frames := frame_of_leaf leaf'
                  have inside' : pa' ∈ next.pagetable.frames :=
                    frame_of_leaf (u := next) (by rw [leafAt, leaves]; exact leaf')
                  have source' : pte'.pa ∈ rest :=
                    parent ⟨.leaf vpn, by simp [PageTable.frameAt, found']⟩
                  refine ⟨pte', pa', found', by rw [leafAt, leaves]; exact leaf', ?_⟩
                  change (next.kmem.kfree pa).mem pa' = (next.kmem.kfree pa).mem pte'.pa
                  rw [mem'' (.inl inside'), mem'' (.inr source'), untouched (.inl inside),
                    untouched (.inr source'), content']
                · intro vpn above
                  rw [leafAt, leaves]
                  exact copies.others vpn above
              obtain ⟨shrinks, leaves'⟩ := dropCopies freed copies' small unmapped
              refine ⟨shrinks.owns, ?_, leaves'⟩
              exact (shrinks.mem.mono Set.subset_union_right).trans
                ((mem''.mono Set.subset_union_right).trans (untouched.mono Set.subset_union_right))
          | true =>
              obtain ⟨vacant, owns', leaves⟩ := spec
              simp only [if_true] at ran
              have copies' : next.CopyOf old (i + 1) := by
                constructor
                · intro vpn below
                  by_cases same : vpn = i
                  · subst same
                    exact ⟨pte, pa, found, by rw [leaves, if_pos rfl], content⟩
                  · obtain ⟨pte', pa', found', leaf', content'⟩ := copies.copied vpn (by omega)
                    refine ⟨pte', pa', found', by rw [leaves, if_neg same, leaf'], ?_⟩
                    have inside : pa' ∈ u.pagetable.frames := frame_of_leaf leaf'
                    have source' : pte'.pa ∈ rest :=
                      parent ⟨.leaf vpn, by simp [PageTable.frameAt, found']⟩
                    rw [untouched (.inl inside), untouched (.inr source'), content']
                · intro vpn above
                  rw [leaves, if_neg (by omega)]
                  exact copies.others vpn (by omega)
              obtain ⟨owns'', mem'', result⟩ := ih owns' copies' ran
              rw [show i + 1 + count = i + (count + 1) by ring] at result
              exact ⟨owns'', mem''.trans (untouched.mono Set.subset_union_right), result⟩

/-- The frames that `freewalk` frees, in the order of the model. -/
def ownFrames (pt : PageTable) : List Frame :=
  pt.leaves.entries.map (fun leaf => leaf.2.pa) ++ pt.tables.entries.map (fun table => table.2) ++
    [pt.root]

theorem mem_ownFrames {pt : PageTable} {f : Frame} : f ∈ ownFrames pt ↔ f ∈ pt.frames := by
  constructor
  · intro listed
    simp only [ownFrames, List.mem_append, List.mem_map, List.mem_singleton] at listed
    rcases listed with (⟨⟨vpn, pte⟩, entry, rfl⟩ | ⟨⟨⟨level, index⟩, pa⟩, entry, rfl⟩) | rfl
    · exact ⟨.leaf vpn, Option.map_eq_some_iff.mpr ⟨pte, AList.mem_lookup_iff.mpr entry, rfl⟩⟩
    · exact ⟨.table level index, AList.mem_lookup_iff.mpr entry⟩
    · exact ⟨.root, rfl⟩
  · rintro ⟨place, found⟩
    simp only [ownFrames, List.mem_append, List.mem_map, List.mem_singleton]
    cases place with
    | root => exact .inr (Option.some.inj found).symm
    | table level index =>
        exact .inl (.inr ⟨⟨(level, index), f⟩, AList.mem_lookup_iff.mp found, rfl⟩)
    | leaf vpn =>
        obtain ⟨pte, entry, rfl⟩ := Option.map_eq_some_iff.mp found
        exact .inl (.inl ⟨⟨vpn, pte⟩, AList.mem_lookup_iff.mp entry, rfl⟩)

private theorem nodup_entries {α : Type} {β : α → Type} (list : AList β) : list.entries.Nodup :=
  List.Nodup.of_map _ list.nodupKeys

theorem nodup_ownFrames {pt : PageTable} (distinct : pt.Distinct) : (ownFrames pt).Nodup := by
  have leafPlace : ∀ {leaf}, leaf ∈ pt.leaves.entries →
      pt.frameAt (.leaf leaf.1) = some leaf.2.pa := fun entry =>
    Option.map_eq_some_iff.mpr ⟨_, AList.mem_lookup_iff.mpr entry, rfl⟩
  have tablePlace : ∀ {table}, table ∈ pt.tables.entries →
      pt.frameAt (.table table.1.1 table.1.2) = some table.2 := fun entry =>
    AList.mem_lookup_iff.mpr entry
  have leaves : (pt.leaves.entries.map fun leaf => leaf.2.pa).Nodup := by
    apply List.Nodup.map_on _ (nodup_entries pt.leaves)
    rintro ⟨vpn, pte⟩ entry ⟨vpn', pte'⟩ entry' same
    have place := leafPlace entry
    simp only at same
    rw [same] at place
    have equal := distinct place (leafPlace entry')
    injection equal with equal
    simp only at equal
    subst equal
    have unique := (AList.mem_lookup_iff.mpr entry).symm.trans (AList.mem_lookup_iff.mpr entry')
    rw [Option.some.inj unique]
  have tables : (pt.tables.entries.map fun table => table.2).Nodup := by
    apply List.Nodup.map_on _ (nodup_entries pt.tables)
    rintro ⟨⟨level, index⟩, pa⟩ entry ⟨⟨level', index'⟩, pa'⟩ entry' same
    simp only at same
    subst same
    have place := tablePlace entry
    have place' := tablePlace entry'
    have equal := distinct place place'
    injection equal with sameLevel sameIndex
    simp only at sameLevel sameIndex
    rw [sameLevel, sameIndex]
  refine List.nodup_append.mpr ⟨List.nodup_append.mpr ⟨leaves, tables, ?_⟩,
    List.nodup_singleton _, ?_⟩
  · rintro f inLeaves g inTables rfl
    obtain ⟨leaf, entry, rfl⟩ := List.mem_map.mp inLeaves
    obtain ⟨table, entry', same⟩ := List.mem_map.mp inTables
    have place := tablePlace entry'
    rw [same] at place
    cases distinct (leafPlace entry) place
  · rintro f listed g isRoot rfl
    rw [List.mem_singleton] at isRoot
    have root : pt.frameAt .root = some f := by
      rw [isRoot]
      rfl
    rcases List.mem_append.mp listed with listed | listed
    · obtain ⟨leaf, entry, rfl⟩ := List.mem_map.mp listed
      cases distinct (leafPlace entry) root
    · obtain ⟨table, entry, rfl⟩ := List.mem_map.mp listed
      cases distinct (tablePlace entry) root

/-- `freewalk` frees the frames of the table, if it returns. -/
theorem freewalk_eq (ran : u.freewalk = .ok m) :
    m = (ownFrames u.pagetable).foldl Kmem.kfree u.kmem := by
  rw [freewalk, bind_ok] at ran
  obtain ⟨m', leaves, ran⟩ := ran
  have freed : ∀ {list : List (Sigma fun _ : Nat => Pte)} {m m' : Kmem},
      list.foldlM (fun m leaf => freeLeaf m leaf.2) m = Except.ok m' →
      m' = (list.map fun leaf => leaf.2.pa).foldl Kmem.kfree m := by
    intro list
    induction list with
    | nil =>
        intro m m' ran
        cases ran
        rfl
    | cons leaf rest ih =>
        intro m m' ran
        rw [List.foldlM_cons, bind_ok] at ran
        obtain ⟨next, first, ran⟩ := ran
        unfold freeLeaf at first
        split at first
        · cases first
        · split at first
          · cases first
            exact ih ran
          · cases first
  cases ran
  rw [freed leaves]
  simp [ownFrames, List.foldl_map]

theorem freewalk_keeps (owns : u.Owns rest) (ran : u.freewalk = .ok m) :
    m.Keeps rest ∧ Set.EqOn m.mem u.kmem.mem rest := by
  rw [freewalk_eq ran]
  apply Kmem.Keeps.kfreeAll
  · have same : {f | f ∈ ownFrames u.pagetable} = u.pagetable.frames := by
      ext f
      exact mem_ownFrames
    rw [same]
    exact owns.keeps
  · exact nodup_ownFrames owns.distinct
  · exact fun f listed => owns.apart f (mem_ownFrames.mp listed)

/-- What `proc_freepagetable` does not free is lost, and the frames of others stay. -/
theorem freeUser_keeps {sz : Nat} (owns : u.Owns rest)
    (ran : u.freeUser sz = .ok m) : m.Keeps rest ∧ Set.EqOn m.mem u.kmem.mem rest := by
  unfold freeUser at ran
  split at ran
  · rw [uvmfree, bind_ok] at ran
    obtain ⟨cleared, unmapped, ran⟩ := ran
    obtain ⟨shrinks, _⟩ := uvmunmap_shrinks owns unmapped
    obtain ⟨keeps, mem⟩ := freewalk_keeps shrinks.owns ran
    exact ⟨keeps, mem.trans (shrinks.mem.mono Set.subset_union_right)⟩
  · cases ran
    exact ⟨owns.keeps.mono Set.subset_union_right, fun _ _ => rfl⟩

/-- Nothing changes but the content of the table's own pages. -/
structure Writes (u u' : Uvm) (rest : Set Frame) : Prop where
  owns : u'.Owns rest
  mem : Set.EqOn u'.kmem.mem u.kmem.mem rest
  table : u'.pagetable = u.pagetable

theorem Writes.refl (owns : u.Owns rest) : u.Writes u rest := ⟨owns, fun _ _ => rfl, rfl⟩

theorem Writes.trans (first : u.Writes u' rest) (second : u'.Writes u'' rest) :
    u.Writes u'' rest :=
  ⟨second.owns, second.mem.trans first.mem, second.table.trans first.table⟩

theorem Writes.setPage {f : Frame} (owns : u.Owns rest) (own : f ∈ u.pagetable.frames)
    (page : Page) : u.Writes ⟨u.kmem.setPage f page, u.pagetable⟩ rest := by
  refine ⟨owns.setPage page, fun g others => ?_, rfl⟩
  have apart : g ≠ f := by
    rintro rfl
    exact owns.apart g own others
  simp [Kmem.setPage, Function.update_of_ne apart]

theorem walkaddr_frame {pa : Frame} (found : u.walkaddr va = some pa) :
    pa ∈ u.pagetable.frames := by
  unfold walkaddr at found
  split at found
  · cases found
  split at found
  · next pte entry =>
    split at found
    · cases found
      exact frame_of_leaf entry
    · cases found
  · cases found

theorem copyout_writes {src : List UInt8} {copied : Bool} (owns : u.Owns rest)
    (ran : u.copyout va src = (copied, u')) : u.Writes u' rest := by
  induction u, va, src using copyout.induct with
  | case1 u va =>
      rw [copyout, dif_pos rfl] at ran
      cases ran
      exact .refl owns
  | case2 u va src more fails =>
      rw [copyout, dif_neg more, fails] at ran
      cases ran
      exact .refl owns
  | case3 u va src more pa0 found n page ih =>
      rw [copyout, dif_neg more, found] at ran
      have first := Writes.setPage owns (walkaddr_frame found) page
      exact first.trans (ih first.owns ran)

end Uvm

namespace TopPages

open Uvm

variable {top : TopPages} {u : Uvm} {m : Kmem} {rest : Set Frame} {sz : Nat}

theorem procFreepagetable_user (ran : top.procFreepagetable u sz = .ok m) : u.freeUser sz = .ok m := by
  obtain ⟨_, _, ran⟩ := bind_ok.mp ran
  obtain ⟨_, _, ran⟩ := bind_ok.mp ran
  exact ran

/-- Freeing a page table gives back its frames and leaves the others alone. -/
theorem procFreepagetable_keeps (owns : u.Owns rest) (ran : top.procFreepagetable u sz = .ok m) :
    m.Keeps rest ∧ Set.EqOn m.mem u.kmem.mem rest :=
  freeUser_keeps owns (procFreepagetable_user ran)

/-- The kernel's pages have their entries. -/
structure Present (top : TopPages) (pt : PageTable) : Prop where
  trampoline : pt.reaches TRAMPOLINE = true ∧ top.trampoline = true
  trapframe : pt.reaches TRAPFRAME = true ∧ top.trapframe.isSome = true

/-- Only the table pages matter. -/
theorem present_congr {pt pt' : PageTable} (tables : pt'.tables = pt.tables) :
    top.Present pt' ↔ top.Present pt := by
  have reaches : ∀ va, pt'.reaches va = pt.reaches va := fun va => by
    rw [PageTable.reaches, tables, PageTable.reaches]
  constructor
  · rintro ⟨trampoline, trapframe⟩
    rw [reaches] at trampoline trapframe
    exact ⟨trampoline, trapframe⟩
  · rintro ⟨trampoline, trapframe⟩
    rw [← reaches] at trampoline trapframe
    exact ⟨trampoline, trapframe⟩

theorem unmap_ok {pt : PageTable} {va : Nat} {mapped : Bool} :
    unmap pt va mapped = .ok () ↔ pt.reaches va = true ∧ mapped = true := by
  unfold unmap
  cases pt.reaches va <;> cases mapped <;> simp

theorem procFreepagetable_present (present : top.Present u.pagetable) :
    top.procFreepagetable u sz = u.freeUser sz := by
  rw [TopPages.procFreepagetable, unmap_ok.mpr present.trampoline, unmap_ok.mpr present.trapframe]
  rfl

/-- `proc_freepagetable` returns if it finds the kernel's pages and the rest can be freed. -/
theorem procFreepagetable_ok :
    top.procFreepagetable u sz = .ok m ↔ top.Present u.pagetable ∧ u.freeUser sz = .ok m := by
  constructor
  · intro ran
    obtain ⟨_, first, rest⟩ := bind_ok.mp ran
    obtain ⟨_, second, -⟩ := bind_ok.mp rest
    exact ⟨⟨unmap_ok.mp first, unmap_ok.mp second⟩, procFreepagetable_user ran⟩
  · rintro ⟨present, ran⟩
    exact (procFreepagetable_present present).trans ran

end TopPages

end Riscv2os.Xv7
