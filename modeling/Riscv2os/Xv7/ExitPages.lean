import Riscv2os.Xv7.MunmapPages
import Riscv2os.Xv7.PagetableFree

/-!
# The pages that `exit` unmaps

`exit` runs `mmap_dedup` over its live mappings. A mapping that starts at a page boundary
loses exactly its pages. A mapping that starts inside a page, after `munmap` has cut it
there, makes `uvmunmap` take two pages for one: if `mmap_dedup` returns after that, the
frame of the second one is lost.
-/

namespace Riscv2os.Xv7

open Riscv2os.Std

/-- The pages at the addresses where `mmap_dedup` looks. -/
def MapInfo.Visits (map : MapInfo) (vpn : Nat) : Prop :=
  vpn ∈ (pagesBetween map.vstart map.vend).map (· / PGSIZE)

instance (map : MapInfo) (vpn : Nat) : Decidable (map.Visits vpn) :=
  inferInstanceAs (Decidable (_ ∈ _))

/-- The mapping starts at a page boundary. -/
def MapInfo.Aligned (map : MapInfo) : Prop := map.vstart % PGSIZE = 0

instance (map : MapInfo) : Decidable map.Aligned := inferInstanceAs (Decidable (_ = _))

namespace Uvm

variable {u u' u'' : Uvm} {pte : Pte} {rest : Set Frame} {va : Nat} {rounds : List Nat} {map : MapInfo}

/-- The loop body of `mmap_dedup`. -/
def dedupPage (u : Uvm) (va : Nat) : Except Fault Uvm := do
  match ← u.pagetable.walk va with
  | some pte => u.dropPage va pte.pa
  | none => return u

/-- A round finds nothing, or drops the page. -/
theorem dedupPage_cases (ran : u.dedupPage va = .ok u') :
    u.leafAt (va / PGSIZE) = none ∧ u' = u ∨
      ∃ pte, u.leafAt (va / PGSIZE) = some pte ∧ u.dropPage va pte.pa = .ok u' := by
  rw [dedupPage, bind_ok] at ran
  obtain ⟨entry, walked, ran⟩ := ran
  have found : u.leafAt (va / PGSIZE) = entry := by
    unfold PageTable.walk at walked
    split at walked
    · cases walked
    · exact Except.ok.inj walked
  cases entry with
  | none =>
      cases ran
      exact .inl ⟨found, rfl⟩
  | some pte => exact .inr ⟨pte, found, ran⟩

/-- Where there is no page a round does nothing. -/
theorem dedupPage_vacant (low : va < MAXVA) (vacant : u.leafAt (va / PGSIZE) = none) :
    u.dedupPage va = .ok u := by
  refine bind_ok.mpr ⟨none, ?_, rfl⟩
  rw [PageTable.walk, if_neg (by omega)]
  exact congrArg Except.ok vacant

/-- In the middle of a page, `mmap_dedup` loses the frame of the next one. -/
theorem dropPage_loses (owns : u.Owns rest) (inside : va % PGSIZE ≠ 0)
    (found : u.leafAt (va / PGSIZE) = some pte) (ran : u.dropPage va pte.pa = .ok u') :
    ∃ f ∈ u.pagetable.frames, f ∉ rest ∧ u'.Owns (insert f rest) := by
  rw [dropPage, bind_ok] at ran
  obtain ⟨cleared, unmapped, ran⟩ := ran
  cases ran
  rw [uvmunmap, unmapPages, bind_ok] at unmapped
  obtain ⟨next, first, unmapped⟩ := unmapped
  have low : pgRoundDown va < MAXVA := by
    rw [unmapPage, bind_ok] at first
    obtain ⟨_, walked, _⟩ := first
    unfold PageTable.walk at walked
    split at walked
    · cases walked
    · omega
  have count : (va + PGSIZE + 2 ^ 64 - 1) % 2 ^ 64 / PGSIZE - va / PGSIZE = 1 := by
    unfold pgRoundDown at low
    simp only [PGSIZE, MAXVA] at low inside ⊢
    omega
  rw [count, unmapPages, bind_ok] at unmapped
  obtain ⟨last, second, unmapped⟩ := unmapped
  cases unmapped
  obtain ⟨pte', found', fresh, lost, kmem, frames, leaves⟩ := unmapPage_spec owns first
  rw [pgRoundDown_div, found] at found'
  cases found'
  obtain ⟨pte'', found'', fresh', lost', kmem', _, _⟩ := unmapPage_spec lost second
  refine ⟨pte''.pa, frames (frame_of_leaf found''), fun others => fresh' (.inr others), ?_⟩
  have same : cleared.kmem = u.kmem := kmem'.trans kmem
  have derefs : cleared.kmem.kderef pte.pa = cleared.kmem.kfree pte.pa :=
    lost'.keeps.kderef_eq (.inr (.inr (Set.mem_insert pte.pa rest)))
  rw [derefs]
  rw [Set.insert_comm] at lost'
  refine (lost'.kfree ?_).1
  rintro (same | others)
  · exact fresh' (.inl same.symm)
  · exact fresh others

/-- The rounds for a mapping that starts at a page boundary. -/
private theorem dedupLoop_spec (owns : u.Owns rest) (aligned : ∀ va ∈ rounds, va % PGSIZE = 0)
    (ran : rounds.foldlM dedupPage u = .ok u') :
    u.Shrinks u' rest ∧ u.Frees u' ∧ ∀ vpn, u'.leafAt vpn =
      if vpn ∈ rounds.map (· / PGSIZE) then none else u.leafAt vpn := by
  induction rounds generalizing u with
  | nil =>
      cases ran
      exact ⟨.refl owns, .refl _, fun _ => rfl⟩
  | cons va rounds ih =>
      rw [List.foldlM_cons, bind_ok] at ran
      obtain ⟨next, first, ran⟩ := ran
      obtain ⟨shrinks, frees, leaves⟩ : u.Shrinks next rest ∧ u.Frees next ∧ ∀ vpn,
          next.leafAt vpn = if vpn = va / PGSIZE then none else u.leafAt vpn := by
        rcases dedupPage_cases first with ⟨vacant, rfl⟩ | ⟨pte, found, dropped⟩
        · refine ⟨.refl owns, .refl _, fun vpn => ?_⟩
          split
          · next same => rw [same, vacant]
          · rfl
        · obtain ⟨shrinks, leaves⟩ := dropPage_shrinks owns found dropped
          have freed := dropPage_frees owns (aligned va List.mem_cons_self) found dropped
          refine ⟨shrinks, freed, fun vpn => ?_⟩
          simp [leaves, aligned va List.mem_cons_self]
      obtain ⟨shrinks', frees', leaves'⟩ := ih shrinks.owns
        (fun va' later => aligned va' (List.mem_cons_of_mem va later)) ran
      refine ⟨shrinks.trans shrinks', frees.trans frees', fun vpn => ?_⟩
      rw [leaves', leaves]
      simp only [List.map_cons, List.mem_cons]
      split_ifs <;> first | rfl | tauto

private theorem dedupLoop_returns (owns : u.Owns rest)
    (ready : ∀ va ∈ rounds, va < MAXVA ∧ va % PGSIZE = 0 ∧
      ∀ pte, u.leafAt (va / PGSIZE) = some pte → pte.bare = false) :
    ∃ u', rounds.foldlM dedupPage u = .ok u' := by
  induction rounds generalizing u with
  | nil => exact ⟨u, rfl⟩
  | cons va rounds ih =>
      obtain ⟨low, aligned, leaf⟩ := ready va List.mem_cons_self
      obtain ⟨next, first⟩ : ∃ next, u.dedupPage va = .ok next := by
        cases found : u.leafAt (va / PGSIZE) with
        | none => exact ⟨u, dedupPage_vacant low found⟩
        | some pte =>
            obtain ⟨next, dropped⟩ := dropPage_returns low aligned found (leaf pte found)
            refine ⟨next, bind_ok.mpr ⟨some pte, ?_, dropped⟩⟩
            rw [PageTable.walk, if_neg (by omega)]
            exact congrArg Except.ok found
      have one : [va].foldlM dedupPage u = .ok next := by
        rw [List.foldlM_cons, first]
        rfl
      obtain ⟨shrinks, _, leaves⟩ := dedupLoop_spec owns
        (fun _ listed => List.mem_singleton.mp listed ▸ aligned) one
      obtain ⟨u', later⟩ := ih shrinks.owns fun va' listed => by
        obtain ⟨low', aligned', leaf'⟩ := ready va' (List.mem_cons_of_mem va listed)
        refine ⟨low', aligned', fun pte found => leaf' pte ?_⟩
        rw [leaves] at found
        split at found
        · cases found
        · exact found
      rw [List.foldlM_cons]
      exact ⟨u', bind_ok.mpr ⟨next, first, later⟩⟩

/-- A mapping that starts at a page boundary loses its pages. -/
theorem mmapDedup_aligned (owns : u.Owns rest) (aligned : map.Aligned)
    (ran : u.mmapDedup map = .ok u') :
    u.Shrinks u' rest ∧ u.Frees u' ∧
      ∀ vpn, u'.leafAt vpn = if map.Visits vpn then none else u.leafAt vpn :=
  dedupLoop_spec owns (fun _ listed => (mem_pagesBetween listed).2.2.trans aligned) ran

theorem mmapDedup_returns (owns : u.Owns rest) (aligned : map.Aligned) (low : map.vend ≤ MAXVA)
    (leaf : ∀ vpn pte, map.Visits vpn → u.leafAt vpn = some pte → pte.bare = false) :
    ∃ u', u.mmapDedup map = .ok u' := by
  refine dedupLoop_returns owns fun va listed => ?_
  obtain ⟨_, below, same⟩ := mem_pagesBetween listed
  exact ⟨lt_of_lt_of_le below low, same.trans aligned,
    fun pte found => leaf _ pte (List.mem_map_of_mem listed) found⟩

/-- Without pages in its way `mmap_dedup` does nothing. -/
theorem mmapDedup_vacant (low : map.vend ≤ MAXVA)
    (vacant : ∀ vpn, map.Visits vpn → u.leafAt vpn = none) : u.mmapDedup map = .ok u := by
  have loop : ∀ {rounds : List Nat}, (∀ va ∈ rounds, va < MAXVA ∧ u.leafAt (va / PGSIZE) = none) →
      rounds.foldlM dedupPage u = .ok u := by
    intro rounds ready
    induction rounds with
    | nil => rfl
    | cons va rounds ih =>
        obtain ⟨low, vacant⟩ := ready va List.mem_cons_self
        rw [List.foldlM_cons, dedupPage_vacant low vacant]
        exact ih fun va' later => ready va' (List.mem_cons_of_mem va later)
  refine loop fun va listed => ?_
  exact ⟨lt_of_lt_of_le (mem_pagesBetween listed).2.1 low, vacant _ (List.mem_map_of_mem listed)⟩

/-- If `mmap_dedup` returns without pages in its way, it has done nothing. -/
theorem mmapDedup_idle (vacant : ∀ vpn, map.Visits vpn → u.leafAt vpn = none)
    (ran : u.mmapDedup map = .ok u') : u' = u := by
  refine (foldlM_rule (fun rounds t => (∀ va ∈ rounds, u.leafAt (va / PGSIZE) = none) ∧ t = u)
    ?_ ⟨fun va listed => vacant _ (List.mem_map_of_mem listed), rfl⟩ ran).2
  rintro va rest t next ⟨ready, rfl⟩ round
  refine ⟨fun va' later => ready va' (List.mem_cons_of_mem va later), ?_⟩
  rcases dedupPage_cases round with ⟨_, rfl⟩ | ⟨pte, found, _⟩
  · rfl
  · rw [ready va List.mem_cons_self] at found
    cases found

/-- A mapping that starts inside a page loses a frame if it has a page. -/
theorem mmapDedup_loses (owns : u.Owns rest) (unaligned : ¬ map.Aligned) {vpn : Nat}
    (visits : map.Visits vpn) (resident : (u.leafAt vpn).isSome) (ran : u.mmapDedup map = .ok u') :
    ∃ f ∈ u.pagetable.frames, f ∉ rest ∧ u'.Owns (insert f rest) := by
  have keeps : ∀ {rounds : List Nat} {u u' : Uvm} {rest : Set Frame}, u.Owns rest →
      rounds.foldlM dedupPage u = .ok u' → u'.Owns rest := by
    intro rounds u u' rest owns ran
    refine foldlM_invariant (fun t : Uvm => t.Owns rest) (fun va t next ownsT round => ?_) owns ran
    rcases dedupPage_cases round with ⟨_, rfl⟩ | ⟨pte, found, dropped⟩
    · exact ownsT
    · exact (dropPage_shrinks ownsT found dropped).1.owns
  have loop : ∀ {rounds : List Nat} {u : Uvm}, u.Owns rest → (∀ va ∈ rounds, va % PGSIZE ≠ 0) →
      vpn ∈ rounds.map (· / PGSIZE) → (u.leafAt vpn).isSome →
      rounds.foldlM dedupPage u = .ok u' →
        ∃ f ∈ u.pagetable.frames, f ∉ rest ∧ u'.Owns (insert f rest) := by
    intro rounds
    induction rounds with
    | nil => intro u _ _ listed; cases listed
    | cons va rounds ih =>
        intro u owns inside listed resident ran
        rw [List.foldlM_cons, bind_ok] at ran
        obtain ⟨next, first, ran⟩ := ran
        rcases dedupPage_cases first with ⟨vacant, rfl⟩ | ⟨pte, found, dropped⟩
        · refine ih owns (fun va' later => inside va' (List.mem_cons_of_mem va later)) ?_ resident ran
          rcases List.mem_cons.mp listed with rfl | later
          · rw [vacant] at resident
            cases resident
          · exact later
        · obtain ⟨f, own, fresh, lost⟩ := dropPage_loses owns (inside va List.mem_cons_self) found dropped
          exact ⟨f, own, fresh, keeps lost ran⟩
  refine loop owns (fun va listed => ?_) visits resident ran
  rw [(mem_pagesBetween listed).2.2]
  exact unaligned

/-- `mmap_dedup` of one mapping after the other. -/
def dedupAll (u : Uvm) (maps : List MapInfo) : Except Fault Uvm := maps.foldlM mmapDedup u

/-- Every mapping that starts inside a page finds no page: the ones before it have taken
them all. -/
def Clean (leafAt : Nat → Option Pte) (maps : List MapInfo) : Prop :=
  ∀ before map after, maps = before ++ map :: after → ¬ map.Aligned → ∀ vpn, map.Visits vpn →
    (leafAt vpn).isSome → ∃ earlier ∈ before, earlier.Aligned ∧ earlier.Visits vpn

/-- What is left after the pages of a mapping are gone. -/
def leavesWithout (leafAt : Nat → Option Pte) (map : MapInfo) (vpn : Nat) : Option Pte :=
  if map.Aligned ∧ map.Visits vpn then none else leafAt vpn

theorem clean_cons {leafAt : Nat → Option Pte} {maps : List MapInfo} :
    Clean leafAt (map :: maps) ↔
      (¬ map.Aligned → ∀ vpn, map.Visits vpn → leafAt vpn = none) ∧
        Clean (leavesWithout leafAt map) maps := by
  have left : ∀ {vpn}, (leavesWithout leafAt map vpn).isSome ↔
      (leafAt vpn).isSome ∧ ¬ (map.Aligned ∧ map.Visits vpn) := by
    intro vpn
    unfold leavesWithout
    split <;> simp_all
  constructor
  · intro clean
    constructor
    · intro unaligned vpn visits
      by_contra resident
      obtain ⟨_, impossible, _⟩ := clean [] map maps rfl unaligned vpn visits
        (Option.isSome_iff_ne_none.mpr resident)
      cases impossible
    · rintro before other after rfl unaligned vpn visits resident
      obtain ⟨resident, notFirst⟩ := left.mp resident
      obtain ⟨earlier, listed, aligned, visits⟩ :=
        clean (map :: before) other after rfl unaligned vpn visits resident
      rcases List.mem_cons.mp listed with rfl | listed
      · exact absurd ⟨aligned, visits⟩ notFirst
      · exact ⟨earlier, listed, aligned, visits⟩
  · rintro ⟨first, clean⟩ before other after split unaligned vpn visits resident
    cases before with
    | nil =>
        obtain ⟨rfl, rfl⟩ := List.cons.inj split
        rw [first unaligned vpn visits] at resident
        cases resident
    | cons head before =>
        obtain ⟨rfl, rfl⟩ := List.cons.inj split
        by_cases taken : map.Aligned ∧ map.Visits vpn
        · exact ⟨map, List.mem_cons_self, taken⟩
        · obtain ⟨earlier, listed, found⟩ :=
            clean before other after rfl unaligned vpn visits (left.mpr ⟨resident, taken⟩)
          exact ⟨earlier, List.mem_cons_of_mem map listed, found⟩

/-- If all mappings find their pages, `exit` unmaps the pages of those that start at a page
boundary. -/
theorem dedupAll_returns {maps : List MapInfo} (owns : u.Owns rest) (clean : Clean u.leafAt maps)
    (low : ∀ map ∈ maps, map.vend ≤ MAXVA)
    (leaf : ∀ map ∈ maps, ∀ vpn pte, map.Visits vpn → u.leafAt vpn = some pte → pte.bare = false) :
    ∃ u', u.dedupAll maps = .ok u' ∧ u.Shrinks u' rest ∧ u.Frees u' ∧ ∀ vpn, u'.leafAt vpn =
      if ∃ map ∈ maps, map.Aligned ∧ map.Visits vpn then none else u.leafAt vpn := by
  induction maps generalizing u with
  | nil => exact ⟨u, rfl, .refl owns, .refl u, fun vpn => by simp⟩
  | cons map maps ih =>
      obtain ⟨first, clean⟩ := clean_cons.mp clean
      have lowFirst := low map List.mem_cons_self
      obtain ⟨next, ran, shrinks, frees, leaves⟩ : ∃ next, u.mmapDedup map = .ok next ∧
          u.Shrinks next rest ∧ u.Frees next ∧ next.leafAt = leavesWithout u.leafAt map := by
        by_cases aligned : map.Aligned
        · obtain ⟨next, ran⟩ := mmapDedup_returns owns aligned lowFirst (leaf map List.mem_cons_self)
          obtain ⟨shrinks, frees, leaves⟩ := mmapDedup_aligned owns aligned ran
          refine ⟨next, ran, shrinks, frees, funext fun vpn => ?_⟩
          simp [leaves, leavesWithout, aligned]
        · refine ⟨u, mmapDedup_vacant lowFirst (first aligned), .refl owns, .refl u,
            funext fun vpn => ?_⟩
          simp [leavesWithout, aligned]
      have fewer : ∀ {vpn pte}, next.leafAt vpn = some pte → u.leafAt vpn = some pte := by
        intro vpn pte found
        rw [leaves, leavesWithout] at found
        split at found
        · cases found
        · exact found
      obtain ⟨u', later, shrinks', frees', leaves'⟩ := ih shrinks.owns (by rwa [leaves])
        (fun other listed => low other (List.mem_cons_of_mem map listed))
        (fun other listed vpn pte visits found =>
          leaf other (List.mem_cons_of_mem map listed) vpn pte visits (fewer found))
      refine ⟨u', ?_, shrinks.trans shrinks', frees.trans frees', fun vpn => ?_⟩
      · exact bind_ok.mpr ⟨next, ran, later⟩
      · rw [leaves', leaves, leavesWithout]
        simp only [List.mem_cons, exists_eq_or_imp]
        by_cases taken : map.Aligned ∧ map.Visits vpn <;> simp [taken]

/-- Otherwise `exit` does not return, or has lost a frame. -/
theorem dedupAll_loses {maps : List MapInfo} (owns : u.Owns rest) (dirty : ¬ Clean u.leafAt maps)
    (ran : u.dedupAll maps = .ok u') :
    ∃ f ∈ u.pagetable.frames, f ∉ rest ∧ u'.Owns (insert f rest) := by
  induction maps generalizing u with
  | nil =>
      refine absurd ?_ dirty
      intro before map after split
      cases before <;> cases split
  | cons map maps ih =>
      obtain ⟨next, first, ran⟩ := bind_ok.mp ran
      by_cases missed : ¬ map.Aligned ∧ ∃ vpn, map.Visits vpn ∧ (u.leafAt vpn).isSome
      · obtain ⟨unaligned, vpn, visits, resident⟩ := missed
        obtain ⟨f, own, fresh, lost⟩ := mmapDedup_loses owns unaligned visits resident first
        refine ⟨f, own, fresh, ?_⟩
        exact foldlM_invariant (fun t : Uvm => t.Owns (insert f rest))
          (fun other t next ownsT dedup => (mmapDedup_shrinks ownsT dedup).1.owns) lost ran
      · have vacant : ¬ map.Aligned → ∀ vpn, map.Visits vpn → u.leafAt vpn = none := by
          intro unaligned vpn visits
          by_contra resident
          exact missed ⟨unaligned, vpn, visits, Option.isSome_iff_ne_none.mpr resident⟩
        obtain ⟨leaves, shrinks⟩ : next.leafAt = leavesWithout u.leafAt map ∧ u.Shrinks next rest := by
          by_cases aligned : map.Aligned
          · obtain ⟨shrinks, _, leaves⟩ := mmapDedup_aligned owns aligned first
            refine ⟨funext fun vpn => ?_, shrinks⟩
            simp [leaves, leavesWithout, aligned]
          · rw [mmapDedup_idle (vacant aligned) first]
            refine ⟨funext fun vpn => ?_, .refl owns⟩
            simp [leavesWithout, aligned]
        obtain ⟨f, own, lost⟩ := ih shrinks.owns
          (fun clean => dirty (clean_cons.mpr ⟨vacant, by rwa [← leaves]⟩)) ran
        exact ⟨f, shrinks.frames own, lost⟩

end Uvm

end Riscv2os.Xv7
