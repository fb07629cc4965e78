import Riscv2os.Xv7.VmRanges

/-!
# The user pages of a process

All pages below the size of a process are there, with all rights, and the only other
user pages are those of mappings, in the window that `mmap` uses. A process owns
different frames for its pages, so its size is at most the physical memory.
-/

namespace Riscv2os.Xv7

open Riscv2os.Std

/-- The user pages of a process of size `sz`. -/
structure UserPages (sz : Nat) (pt : PageTable) : Prop where
  heap : ∀ vpn, vpn * PGSIZE < sz → ∃ pte, pt.leaves.lookup vpn = some pte ∧
    pte.r = true ∧ pte.w = true ∧ pte.x = true
  mapped : ∀ {vpn pte}, pt.leaves.lookup vpn = some pte → vpn * PGSIZE < sz ∨
    MMAP_VSTART ≤ vpn * PGSIZE ∧ vpn * PGSIZE < MMAP_VEND ∧ pte.u = true ∧ pte.x = false

/-- Every frame is one of 128 MB, so the pages from address 0 on end there. -/
theorem Uvm.pages_le (u : Uvm) {rest : Set Frame} {n : Nat} (owns : u.Owns rest)
    (pages : ∀ vpn < n, (u.leafAt vpn).isSome) : n ≤ 2 ^ 15 := by
  by_contra more
  have frame : ∀ vpn, ∃ f, vpn < n → u.pagetable.frameAt (.leaf vpn) = some f := by
    intro vpn
    by_cases inside : vpn < n
    · obtain ⟨pte, found⟩ := Option.isSome_iff_exists.mp (pages vpn inside)
      exact ⟨pte.pa, fun _ => by simp [PageTable.frameAt, found]⟩
    · exact ⟨0, fun h => absurd h inside⟩
  choose f isFrame using frame
  obtain ⟨vpn, inside, vpn', inside', apart, same⟩ :=
    Finset.exists_ne_map_eq_of_card_lt_of_maps_to
      (s := Finset.range n) (t := Finset.Ico (KERNBASE / PGSIZE) (PHYSTOP / PGSIZE))
      (f := f) (by
        simp only [PHYSTOP, KERNBASE, PGSIZE, Nat.card_Ico, Finset.card_range]
        omega) (by
        intro vpn inside
        have managed := (owns.keeps.taken (f vpn)
          (.inl ⟨_, isFrame vpn (by simpa using inside)⟩)).2
        exact Finset.coe_mem (⟨f vpn, Finset.mem_Ico.mpr managed⟩ : Finset.Ico _ _))
  have place := isFrame vpn (Finset.mem_range.mp inside)
  have place' := isFrame vpn' (Finset.mem_range.mp inside')
  rw [← same] at place'
  have equal := owns.distinct place place'
  injection equal with equal
  exact apart equal

namespace UserPages

variable {u u' : Uvm} {pt pt' : PageTable} {rest : Set Frame} {sz oldsz newsz : Nat}

theorem congr (pages : UserPages sz pt)
    (same : ∀ vpn, pt'.leaves.lookup vpn = pt.leaves.lookup vpn) : UserPages sz pt' := by
  constructor
  · intro vpn below
    rw [same]
    exact pages.heap vpn below
  · intro vpn pte found
    rw [same] at found
    exact pages.mapped found

/-- There is no more user memory than physical memory, 128 MB. -/
theorem sz_le (pages : UserPages sz u.pagetable) (owns : u.Owns rest) :
    sz ≤ 2 ^ 27 := by
  by_contra more
  have bound : 2 ^ 15 + 1 ≤ 2 ^ 15 := u.pages_le owns fun vpn inside => by
    obtain ⟨pte, found, _⟩ := pages.heap vpn (by
      simp only [PGSIZE] at more ⊢
      omega)
    exact Option.isSome_iff_exists.mpr ⟨pte, found⟩
  omega

/-- `uvmalloc` gives a process of the new size, or fails and leaves the user pages. -/
theorem uvmalloc (pages : UserPages oldsz u.pagetable) (owns : u.Owns rest)
    (small : newsz < 2 ^ 64) (ran : u.uvmalloc oldsz newsz = .ok (sz, u')) :
    UserPages sz u'.pagetable ∨ sz = 0 ∧ UserPages oldsz u'.pagetable := by
  have bound := pages.sz_le owns
  obtain ⟨_, _, ⟨⟨_, rfl⟩ | rfl, same⟩ | ⟨more, rfl, grown⟩⟩ := Uvm.uvmalloc_spec owns small ran
  · exact .inl (pages.congr same)
  · exact .inr ⟨rfl, pages.congr same⟩
  have start : pgRoundUp oldsz / PGSIZE = (oldsz + PGSIZE - 1) / PGSIZE := by
    unfold pgRoundUp pgRoundDown
    simp only [PGSIZE] at bound ⊢
    omega
  rw [start] at grown
  left
  constructor
  · intro vpn below
    by_cases old : vpn * PGSIZE < oldsz
    · obtain ⟨pte, found, rights⟩ := pages.heap vpn old
      have same := grown.others vpn (by simp only [PGSIZE] at old ⊢; omega)
      exact ⟨pte, same.trans found, rights⟩
    · obtain ⟨_, pa, found⟩ := grown.added vpn (by simp only [PGSIZE] at old ⊢; omega)
        (by simp only [PGSIZE] at below ⊢; omega)
      exact ⟨_, found, rfl, rfl, rfl⟩
  · intro vpn pte found
    by_cases new : (oldsz + PGSIZE - 1) / PGSIZE ≤ vpn ∧
        vpn < max ((oldsz + PGSIZE - 1) / PGSIZE) ((sz + PGSIZE - 1) / PGSIZE)
    · left
      simp only [PGSIZE] at new ⊢
      omega
    · rcases pages.mapped ((grown.others vpn new).symm.trans found) with old | window
      · exact .inl (lt_of_lt_of_le old more)
      · exact .inr window

/-- `uvmdealloc` gives a process of the new size. -/
theorem uvmdealloc (pages : UserPages oldsz u.pagetable) (owns : u.Owns rest)
    (ran : u.uvmdealloc oldsz newsz = .ok (sz, u')) :
    UserPages sz u'.pagetable ∧ u.Shrinks u' rest := by
  have bound := pages.sz_le owns
  unfold Uvm.uvmdealloc at ran
  split at ran
  · cases ran
    exact ⟨pages, .refl owns⟩
  next less =>
  have up : ∀ n, n ≤ oldsz → pgRoundUp n = (n + PGSIZE - 1) / PGSIZE * PGSIZE := by
    intro n _
    unfold pgRoundUp pgRoundDown
    simp only [PGSIZE] at bound ⊢
    omega
  simp only [up newsz (by omega), up oldsz le_rfl] at ran
  split at ran
  · next fewer =>
    rw [bind_ok] at ran
    obtain ⟨cleared, unmapped, ran⟩ := ran
    cases ran
    obtain ⟨shrinks, leaves⟩ := Uvm.uvmunmap_shrinks owns unmapped
    have range : ∀ vpn, (sz + PGSIZE - 1) / PGSIZE * PGSIZE / PGSIZE ≤ vpn ∧
        vpn < (sz + PGSIZE - 1) / PGSIZE * PGSIZE / PGSIZE +
          (Uvm.unmapLast ((sz + PGSIZE - 1) / PGSIZE * PGSIZE)
              (oldsz - (sz + PGSIZE - 1) / PGSIZE * PGSIZE) -
            (sz + PGSIZE - 1) / PGSIZE * PGSIZE / PGSIZE + 1) ↔
        sz ≤ vpn * PGSIZE ∧ vpn * PGSIZE < oldsz := by
      intro vpn
      unfold Uvm.unmapLast
      simp only [PGSIZE] at bound fewer ⊢
      omega
    refine ⟨⟨fun vpn below => ?_, fun {vpn pte} found => ?_⟩, shrinks⟩
    · obtain ⟨pte, found, rights⟩ := pages.heap vpn (lt_trans below (not_le.mp less))
      have same := leaves vpn
      rw [if_neg fun inside => absurd below (not_lt.mpr ((range vpn).mp inside).1)] at same
      exact ⟨pte, same.trans found, rights⟩
    · have same := leaves vpn
      split at same
      · rw [Uvm.leafAt, found] at same
        cases same
      · next outside =>
        rw [range, not_and_or, not_le] at outside
        rcases pages.mapped (same.symm.trans found) with old | window
        · exact .inl (outside.resolve_right (not_not.mpr old))
        · exact .inr window
  · next same =>
    cases ran
    refine ⟨⟨fun vpn below => pages.heap vpn (lt_trans below (not_le.mp less)),
      fun {vpn pte} found => ?_⟩, .refl owns⟩
    rcases pages.mapped found with old | window
    · left
      simp only [PGSIZE] at same old ⊢
      omega
    · exact .inr window

end UserPages

namespace Uvm

variable {u u' : Uvm} {rest : Set Frame} {ip : Inode} {va sz : Nat}

/-- `loadseg` writes into pages of the table. -/
theorem loadseg_writes {offset filesz : Nat} {loaded : Bool} (owns : u.Owns rest)
    (ran : u.loadseg va ip offset filesz = .ok (loaded, u')) : u.Writes u' rest := by
  have loop : ∀ {count i u}, u.Owns rest →
      loadPages ip va offset filesz count i u = .ok (loaded, u') → u.Writes u' rest := by
    intro count
    induction count with
    | zero =>
        intro i u owns ran
        cases ran
        exact .refl owns
    | succ count ih =>
        intro i u owns ran
        rw [loadPages] at ran
        split at ran
        · cases ran
        next pa found =>
        obtain ⟨⟨page, got⟩, read⟩ : ∃ result, ip.readi (u.kmem.mem pa) ((offset + i) % 2 ^ 32)
          (min PGSIZE (filesz - i)) = result := ⟨_, rfl⟩
        simp only [read] at ran
        have first := Writes.setPage owns (walkaddr_frame found) page
        split at ran
        · cases ran
          exact first
        · exact first.trans (ih first.owns ran)
  unfold loadseg at ran
  split at ran
  · cases ran
  · exact loop owns ran

/-- What the segments of a program leave: user pages of the size, unless the program is
refused. -/
theorem loadSegments_spec {count off sz' : Nat} {loaded : Bool} (owns : u.Owns rest)
    (pages : UserPages sz u.pagetable)
    (ran : loadSegments ip count off sz u = .ok (loaded, sz', u')) :
    u'.Owns rest ∧ Set.EqOn u'.kmem.mem u.kmem.mem rest ∧
      (loaded = true → UserPages sz' u'.pagetable) := by
  induction count generalizing u off sz with
  | zero =>
      cases ran
      exact ⟨owns, fun _ _ => rfl, fun _ => pages⟩
  | succ count ih =>
      have refused : ∀ {sz' : Nat} {u' : Uvm}, u'.Owns rest →
          Set.EqOn u'.kmem.mem u.kmem.mem rest →
          u'.Owns rest ∧ Set.EqOn u'.kmem.mem u.kmem.mem rest ∧
            (false = true → UserPages sz' u'.pagetable) := fun owns mem =>
        ⟨owns, mem, fun impossible => by cases impossible⟩
      obtain ⟨⟨ph, got⟩, read⟩ : ∃ result, ip.readi (fun _ => 0) off 56 = result := ⟨_, rfl⟩
      rw [loadSegments] at ran
      simp only [read] at ran
      split at ran
      · cases ran
        exact refused owns fun _ _ => rfl
      split at ran
      · exact ih owns pages ran
      split at ran
      · cases ran
        exact refused owns fun _ _ => rfl
      split at ran
      · cases ran
        exact refused owns fun _ _ => rfl
      simp only [pure, Except.pure, bind_ok] at ran
      obtain ⟨⟨newsz, grown⟩, alloc, ran⟩ := ran
      have small : (field ph 16 8 + field ph 40 8) % 2 ^ 64 < 2 ^ 64 := Nat.mod_lt _ (by decide)
      obtain ⟨owns', mem, _⟩ := uvmalloc_spec owns small alloc
      have pages' := pages.uvmalloc owns small alloc
      split at ran
      · cases ran
        exact refused owns' mem
      next positive =>
      split at ran
      · cases ran
        exact refused owns' mem
      rw [bind_ok] at ran
      obtain ⟨⟨isLoaded, filled⟩, load, ran⟩ := ran
      have writes := loadseg_writes owns' load
      cases isLoaded with
      | false =>
          cases ran
          exact refused writes.owns (writes.mem.trans mem)
      | true =>
          have pages'' : UserPages newsz filled.pagetable := by
            rw [writes.table]
            rcases pages' with pages' | ⟨zero, _⟩
            · exact pages'
            · exact absurd zero positive
          obtain ⟨owns'', mem'', result⟩ := ih writes.owns pages'' ran
          exact ⟨owns'', mem''.trans (writes.mem.trans mem), result⟩

/-- `pushArgs` writes into pages of the table. -/
theorem pushArgs_writes {stackbase sp : Nat} {args : List (List UInt8)} {ustack : List Nat}
    {result : Option (Nat × List Nat)} (owns : u.Owns rest)
    (ran : pushArgs stackbase args sp ustack u = (result, u')) : u.Writes u' rest := by
  induction args generalizing u sp ustack with
  | nil =>
      cases ran
      exact .refl owns
  | cons arg more ih =>
      rw [pushArgs] at ran
      split at ran
      · cases ran
        exact .refl owns
      simp only at ran
      split at ran
      · cases ran
        exact .refl owns
      obtain ⟨⟨copied, next⟩, copy⟩ : ∃ result, u.copyout
        (sub64 sp (arg.length + 1) - sub64 sp (arg.length + 1) % 16) (arg ++ [0]) = result :=
        ⟨_, rfl⟩
      simp only [copy] at ran
      have writes := copyout_writes owns copy
      split at ran
      · exact writes.trans (ih writes.owns ran)
      · cases ran
        exact writes

/-- `uvmclear` only takes `PTE_U` from a page. -/
theorem uvmclear_spec (owns : u.Owns rest) (ran : u.uvmclear va = .ok u') :
    u'.Owns rest ∧ u'.kmem = u.kmem ∧
      ∀ vpn, u'.leafAt vpn = if vpn = va / PGSIZE then
        (u.leafAt vpn).map fun pte => { pte with u := false } else u.leafAt vpn := by
  rw [uvmclear, bind_ok] at ran
  obtain ⟨entry, walked, ran⟩ := ran
  have found : u.leafAt (va / PGSIZE) = entry := by
    unfold PageTable.walk at walked
    split at walked
    · cases walked
    · exact Except.ok.inj walked
  cases entry with
  | none =>
      simp only at ran
      split at ran
      · cases ran
        refine ⟨owns, rfl, fun vpn => ?_⟩
        split
        · next same =>
          rw [same, found]
          rfl
        · rfl
      · cases ran
  | some pte =>
      cases ran
      refine ⟨owns.same ?_, rfl, fun vpn => ?_⟩
      · rw [PageTable.frameAt_setLeaf, Function.update_eq_self_iff]
        simp [PageTable.frameAt, found]
      · rw [leafAt_setLeaf]
        split
        · next same =>
          rw [same, found]
          rfl
        · rfl

/-- The page that `uvmclear` changes keeps its rights. -/
theorem pages_uvmclear (pages : UserPages sz u.pagetable) (below : va / PGSIZE * PGSIZE < sz)
    (cleared : ∀ vpn, u'.leafAt vpn = if vpn = va / PGSIZE then
      (u.leafAt vpn).map fun pte => { pte with u := false } else u.leafAt vpn) :
    UserPages sz u'.pagetable := by
  constructor
  · intro vpn inside
    obtain ⟨pte, found, rights⟩ := pages.heap vpn inside
    have entry := cleared vpn
    by_cases same : vpn = va / PGSIZE
    · rw [if_pos same, show u.leafAt vpn = some pte from found] at entry
      exact ⟨_, entry, rights⟩
    · rw [if_neg same] at entry
      exact ⟨pte, entry.trans found, rights⟩
  · intro vpn pte found
    by_cases same : vpn = va / PGSIZE
    · exact .inl (same ▸ below)
    · have entry := cleared vpn
      rw [if_neg same] at entry
      exact pages.mapped (entry.symm.trans found)

/-- A process of any size has the whole of its last page. -/
theorem pages_roundUp (pages : UserPages sz u.pagetable) (small : sz ≤ 2 ^ 27) :
    UserPages (pgRoundUp sz) u.pagetable := by
  have up : pgRoundUp sz = (sz + PGSIZE - 1) / PGSIZE * PGSIZE := by
    unfold pgRoundUp pgRoundDown
    simp only [PGSIZE]
    omega
  have below : ∀ vpn, vpn * PGSIZE < pgRoundUp sz ↔ vpn * PGSIZE < sz := by
    intro vpn
    rw [up]
    simp only [PGSIZE]
    omega
  constructor
  · intro vpn inside
    exact pages.heap vpn ((below vpn).mp inside)
  · intro vpn pte found
    rw [below]
    exact pages.mapped found

/-- The page table that `exec` builds. -/
theorem buildImage_spec {elf : Page} {argv : List (List UInt8)} {built : Bool} {sz : Nat}
    (owns : u.Owns rest) (empty : u.pagetable.leaves = ∅)
    (ran : u.buildImage ip elf argv = .ok (built, sz, u')) :
    u'.Owns rest ∧ Set.EqOn u'.kmem.mem u.kmem.mem rest ∧
      (built = true → UserPages sz u'.pagetable) := by
  have none : UserPages 0 u.pagetable :=
    ⟨fun vpn below => absurd below (Nat.not_lt_zero _), fun {vpn pte} found => by simp [empty] at found⟩
  rw [buildImage, bind_ok] at ran
  obtain ⟨⟨loaded, size, filled⟩, load, ran⟩ := ran
  obtain ⟨owns₁, mem₁, pages₁⟩ := loadSegments_spec owns none load
  cases loaded with
  | false =>
      cases ran
      exact ⟨owns₁, mem₁, fun impossible => by cases impossible⟩
  | true =>
      simp only [Bool.not_true, Bool.false_eq_true, if_false, bind_ok] at ran
      obtain ⟨⟨newsz, grown⟩, alloc, ran⟩ := ran
      have bound := (pages₁ rfl).sz_le owns₁
      have pages := pages_roundUp (pages₁ rfl) bound
      have small : (pgRoundUp size + 2 * PGSIZE) % 2 ^ 64 < 2 ^ 64 := Nat.mod_lt _ (by decide)
      obtain ⟨owns₂, mem₂, sized⟩ := uvmalloc_spec owns₁ small alloc
      have pages₂ := pages.uvmalloc owns₁ small alloc
      have mem₂ := mem₂.trans mem₁
      split at ran
      · cases ran
        exact ⟨owns₂, mem₂, fun impossible => by cases impossible⟩
      next positive =>
      have pages₂ : UserPages newsz grown.pagetable := by
        rcases pages₂ with pages₂ | ⟨zero, _⟩
        · exact pages₂
        · exact absurd zero positive
      rw [bind_ok] at ran
      obtain ⟨cleared, clear, ran⟩ := ran
      obtain ⟨owns₃, same, leaves⟩ := uvmclear_spec owns₂ clear
      have guard : sub64 newsz (2 * PGSIZE) / PGSIZE * PGSIZE < newsz := by
        have newSize : newsz = pgRoundUp size + 2 * PGSIZE := by
          have up : pgRoundUp size ≤ size + PGSIZE := by
            unfold pgRoundUp pgRoundDown
            simp only [PGSIZE]
            omega
          have fits : (pgRoundUp size + 2 * PGSIZE) % 2 ^ 64 = pgRoundUp size + 2 * PGSIZE := by
            simp only [PGSIZE] at up ⊢
            omega
          rw [fits] at sized
          rcases sized with ⟨⟨less, _⟩ | zero, _⟩ | ⟨_, equal, _⟩
          · omega
          · exact absurd zero positive
          · exact equal
        unfold sub64
        simp only [PGSIZE] at newSize ⊢
        omega
      have pages₃ := pages_uvmclear pages₂ guard leaves
      have mem₃ : Set.EqOn cleared.kmem.mem u.kmem.mem rest := by
        rw [same]
        exact mem₂
      obtain ⟨⟨args, pushed⟩, push⟩ : ∃ result,
        pushArgs (sub64 newsz PGSIZE) argv newsz [] cleared = result := ⟨_, rfl⟩
      have writes := pushArgs_writes owns₃ push
      simp only [push] at ran
      have mem₄ := writes.mem.trans mem₃
      cases args with
      | none =>
          cases ran
          exact ⟨writes.owns, mem₄, fun impossible => by cases impossible⟩
      | some args =>
          simp only at ran
          split at ran
          · cases ran
            exact ⟨writes.owns, mem₄, fun impossible => by cases impossible⟩
          cases ran
          obtain ⟨⟨copied, final⟩, copy⟩ : ∃ result, pushed.copyout
            (sub64 args.1 ((args.2.length + 1) * 8) - sub64 args.1 ((args.2.length + 1) * 8) % 16)
            (wordBytes (args.2 ++ [0])) = result := ⟨_, rfl⟩
          have writes' := copyout_writes writes.owns copy
          rw [copy]
          refine ⟨writes'.owns, writes'.mem.trans mem₄, fun _ => ?_⟩
          change UserPages sz final.pagetable
          rw [writes'.table, writes.table]
          exact pages₃

end Uvm

end Riscv2os.Xv7
