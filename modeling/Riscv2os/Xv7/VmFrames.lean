import Mathlib.Data.Set.Function
import Riscv2os.Std.Loops
import Riscv2os.Xv7.Exec

/-!
# Who owns which physical page

A page table owns the frames of its own pages and of its leaf entries. `Owns rest`
says that it does so alone while the frames of `rest` belong to others, that each of
these frames is counted once, and that no free frame is counted. Every function on
one page table keeps this and leaves the content of `rest` alone.
-/

namespace Riscv2os.Xv7

open Riscv2os.Std

/-- A frame of physical memory. -/
def Managed (f : Frame) : Prop := KERNBASE / PGSIZE ≤ f ∧ f < PHYSTOP / PGSIZE

namespace Kmem

/-- The frames of `owned` are counted once, free frames are listed once and not
counted. -/
structure Keeps (m : Kmem) (owned : Set Frame) : Prop where
  taken : ∀ f ∈ owned, m.refCount f = 1 ∧ Managed f
  nodup : m.freelist.Nodup
  free : ∀ f ∈ m.freelist, m.refCount f = 0 ∧ Managed f

namespace Keeps

variable {m m' : Kmem} {f : Frame} {owned fewer : Set Frame}

theorem mono (keeps : m.Keeps owned) (subset : fewer ⊆ owned) : m.Keeps fewer :=
  ⟨fun f inside => keeps.taken f (subset inside), keeps.nodup, keeps.free⟩

theorem setPage (keeps : m.Keeps owned) (page : Page) : (m.setPage f page).Keeps owned :=
  ⟨keeps.taken, keeps.nodup, keeps.free⟩

/-- `kalloc` returns a frame that nobody owns. -/
theorem kalloc (keeps : m.Keeps owned) (alloc : m.kalloc = some (f, m')) :
    f ∉ owned ∧ m'.Keeps (insert f owned) ∧ Set.EqOn m'.mem m.mem owned := by
  unfold Kmem.kalloc at alloc
  split at alloc
  · cases alloc
  next rest list =>
  cases alloc
  have first : f ∈ m.freelist := by
    rw [list]
    exact List.mem_cons_self
  have fresh : f ∉ owned := by
    intro inside
    have taken := (keeps.taken f inside).1
    rw [(keeps.free f first).1] at taken
    cases taken
  have nodup := keeps.nodup
  rw [list, List.nodup_cons] at nodup
  refine ⟨fresh, ⟨?_, nodup.2, ?_⟩, ?_⟩
  · intro g inside
    by_cases same : g = f
    · subst same
      exact ⟨Function.update_self .., (keeps.free g first).2⟩
    · rcases inside with rfl | inside
      · exact absurd rfl same
      · simpa [Kmem.setPage, Function.update_of_ne same] using keeps.taken g inside
  · intro g inside
    have apart : g ≠ f := by
      rintro rfl
      exact nodup.1 inside
    have free := keeps.free g (by
      rw [list]
      exact List.mem_cons_of_mem _ inside)
    simpa [Kmem.setPage, Function.update_of_ne apart] using free
  · intro g inside
    have apart : g ≠ f := by
      rintro rfl
      exact fresh inside
    simp [Kmem.setPage, Function.update_of_ne apart]

/-- `kfree` of a frame that is given up. -/
theorem kfree (keeps : m.Keeps (insert f owned)) (apart : f ∉ owned) :
    (m.kfree f).Keeps owned ∧ Set.EqOn (m.kfree f).mem m.mem owned := by
  obtain ⟨counted, managed⟩ := keeps.taken f (Set.mem_insert f owned)
  refine ⟨⟨?_, ?_, ?_⟩, ?_⟩
  · intro g inside
    have other : g ≠ f := by
      rintro rfl
      exact apart inside
    simpa [Kmem.kfree, Kmem.setPage, Function.update_of_ne other] using
      keeps.taken g (Set.mem_insert_of_mem f inside)
  · refine List.nodup_cons.mpr ⟨fun listed => ?_, keeps.nodup⟩
    have free := (keeps.free f listed).1
    rw [counted] at free
    cases free
  · intro g listed
    by_cases same : g = f
    · subst same
      exact ⟨Function.update_self .., managed⟩
    · have before : g ∈ m.freelist := by
        simpa [Kmem.kfree, Kmem.setPage, same] using listed
      simpa [Kmem.kfree, Kmem.setPage, Function.update_of_ne same] using keeps.free g before
  · intro g inside
    have other : g ≠ f := by
      rintro rfl
      exact apart inside
    simp [Kmem.kfree, Kmem.setPage, Function.update_of_ne other]

/-- `kderef` drops the only reference to an owned frame and frees it. -/
theorem kderef_eq (keeps : m.Keeps owned) (inside : f ∈ owned) : m.kderef f = m.kfree f := by
  have counted := (keeps.taken f inside).1
  unfold Kmem.kderef
  simp only [counted, sub_self, Function.update_self, if_true]
  simp [Kmem.kfree, Kmem.setPage]

/-- `kfree` of a list of frames, one after the other. -/
theorem kfreeAll {frames : List Frame} (keeps : m.Keeps ({f | f ∈ frames} ∪ owned))
    (nodup : frames.Nodup) (apart : ∀ f ∈ frames, f ∉ owned) :
    (frames.foldl Kmem.kfree m).Keeps owned ∧
      Set.EqOn (frames.foldl Kmem.kfree m).mem m.mem owned := by
  induction frames generalizing m with
  | nil => exact ⟨keeps.mono (by simp), fun _ _ => rfl⟩
  | cons f rest ih =>
      obtain ⟨fresh, nodup⟩ := List.nodup_cons.mp nodup
      have split : ({g | g ∈ f :: rest} ∪ owned : Set Frame) =
          insert f ({g | g ∈ rest} ∪ owned) := by
        ext g
        simp [or_assoc]
      rw [split] at keeps
      have other : f ∉ ({g | g ∈ rest} ∪ owned : Set Frame) := by
        rintro (inside | inside)
        · exact fresh inside
        · exact apart f List.mem_cons_self inside
      obtain ⟨keeps, mem⟩ := keeps.kfree other
      obtain ⟨keeps, mem'⟩ := ih keeps nodup fun g inside => apart g (List.mem_cons_of_mem f inside)
      exact ⟨keeps, mem'.trans (mem.mono Set.subset_union_right)⟩

end Keeps

end Kmem

namespace PageTable

/-- The places of a page table that refer to frames. -/
inductive Place where
  | root
  | table (level index : Nat)
  | leaf (vpn : Nat)
deriving DecidableEq

/-- The frame at a place. -/
def frameAt (pt : PageTable) : Place → Option Frame
  | .root => some pt.root
  | .table level index => pt.tables.lookup (level, index)
  | .leaf vpn => (pt.leaves.lookup vpn).map Pte.pa

/-- The frames of a page table. -/
def frames (pt : PageTable) : Set Frame := {f | ∃ place, pt.frameAt place = some f}

/-- No frame is at two places. -/
def Distinct (pt : PageTable) : Prop :=
  ∀ {place place' f}, pt.frameAt place = some f → pt.frameAt place' = some f → place = place'

theorem frameAt_setLeaf (pt : PageTable) (va : Nat) (pte : Pte) :
    (pt.setLeaf va pte).frameAt =
      Function.update pt.frameAt (.leaf (va / PGSIZE)) (some pte.pa) := by
  funext place
  cases place with
  | root => rfl
  | table level index => rfl
  | leaf vpn =>
      by_cases same : vpn = va / PGSIZE
      · subst same
        simp [frameAt, setLeaf]
      · simp [frameAt, setLeaf, same, AList.lookup_insert_ne same]

theorem frameAt_clearLeaf (pt : PageTable) (va : Nat) :
    (pt.clearLeaf va).frameAt = Function.update pt.frameAt (.leaf (va / PGSIZE)) none := by
  funext place
  cases place with
  | root => rfl
  | table level index => rfl
  | leaf vpn =>
      by_cases same : vpn = va / PGSIZE
      · subst same
        simp [frameAt, clearLeaf]
      · simp [frameAt, clearLeaf, same, AList.lookup_erase_ne same]

theorem frameAt_addTable (pt : PageTable) (level index : Nat) (pa : Frame) :
    ({ pt with tables := pt.tables.insert (level, index) pa } : PageTable).frameAt =
      Function.update pt.frameAt (.table level index) (some pa) := by
  funext place
  cases place with
  | root => rfl
  | leaf vpn => rfl
  | table level' index' =>
      by_cases same : (level', index') = (level, index)
      · obtain ⟨rfl, rfl⟩ := Prod.mk.inj same
        simp [frameAt]
      · have apart : Place.table level' index' ≠ .table level index := by
          rintro ⟨⟩
          exact same rfl
        simp [frameAt, AList.lookup_insert_ne same, Function.update_of_ne apart]

end PageTable

namespace Uvm

/-- The page table owns its frames, and others those of `rest`. -/
structure Owns (u : Uvm) (rest : Set Frame) : Prop where
  keeps : u.kmem.Keeps (u.pagetable.frames ∪ rest)
  distinct : u.pagetable.Distinct
  apart : ∀ f ∈ u.pagetable.frames, f ∉ rest

namespace Owns

variable {u : Uvm} {m : Kmem} {pt pt' : PageTable} {f : Frame} {rest fewer : Set Frame}
  {place : PageTable.Place}

/-- Others may forget about frames. -/
theorem mono (owns : u.Owns rest) (subset : fewer ⊆ rest) : u.Owns fewer where
  keeps := owns.keeps.mono (Set.union_subset_union_right _ subset)
  distinct := owns.distinct
  apart f inside forgotten := owns.apart f inside (subset forgotten)

/-- A frame that nobody refers to any more is lost. -/
theorem leak (owns : u.Owns (insert f rest)) : u.Owns rest := owns.mono (Set.subset_insert f rest)

theorem setPage (owns : u.Owns rest) (page : Page) :
    (⟨u.kmem.setPage f page, u.pagetable⟩ : Uvm).Owns rest :=
  ⟨owns.keeps.setPage page, owns.distinct, owns.apart⟩

/-- Flags of entries do not matter. -/
theorem same (owns : (⟨m, pt⟩ : Uvm).Owns rest) (places : pt'.frameAt = pt.frameAt) :
    (⟨m, pt'⟩ : Uvm).Owns rest := by
  have frames : pt'.frames = pt.frames := by
    unfold PageTable.frames
    rw [places]
  refine ⟨?_, ?_, ?_⟩
  · change m.Keeps (pt'.frames ∪ rest)
    rw [frames]
    exact owns.keeps
  · unfold PageTable.Distinct
    rw [places]
    exact owns.distinct
  · change ∀ f ∈ pt'.frames, f ∉ rest
    rw [frames]
    exact owns.apart

/-- A frame of the others goes to a vacant place. -/
theorem gain (owns : (⟨m, pt⟩ : Uvm).Owns (insert f rest)) (fresh : f ∉ rest)
    (vacant : pt.frameAt place = none)
    (places : pt'.frameAt = Function.update pt.frameAt place (some f)) :
    (⟨m, pt'⟩ : Uvm).Owns rest := by
  have inside : ∀ {g}, g ∈ pt'.frames → g = f ∨ g ∈ pt.frames := by
    rintro g ⟨place', found⟩
    rw [places] at found
    by_cases same : place' = place
    · subst same
      rw [Function.update_self] at found
      exact .inl (Option.some.inj found).symm
    · rw [Function.update_of_ne same] at found
      exact .inr ⟨place', found⟩
  have lost : ∀ {place'}, pt.frameAt place' ≠ some f := by
    intro place' found
    exact owns.apart f ⟨place', found⟩ (Set.mem_insert f rest)
  refine ⟨owns.keeps.mono ?_, ?_, ?_⟩
  · rintro g (own | others)
    · rcases inside own with rfl | own
      · exact .inr (Set.mem_insert g rest)
      · exact .inl own
    · exact .inr (Set.mem_insert_of_mem f others)
  · intro place₁ place₂ g found₁ found₂
    rw [places] at found₁ found₂
    by_cases same₁ : place₁ = place <;> by_cases same₂ : place₂ = place
    · rw [same₁, same₂]
    · rw [same₁, Function.update_self] at found₁
      rw [Function.update_of_ne same₂] at found₂
      cases found₁
      exact absurd found₂ lost
    · rw [same₂, Function.update_self] at found₂
      rw [Function.update_of_ne same₁] at found₁
      cases found₂
      exact absurd found₁ lost
    · rw [Function.update_of_ne same₁] at found₁
      rw [Function.update_of_ne same₂] at found₂
      exact owns.distinct found₁ found₂
  · intro g own others
    rcases inside own with rfl | own
    · exact fresh others
    · exact owns.apart g own (Set.mem_insert_of_mem f others)

/-- A frame is taken from its place. -/
theorem lose (owns : (⟨m, pt⟩ : Uvm).Owns rest) (had : pt.frameAt place = some f)
    (places : pt'.frameAt = Function.update pt.frameAt place none) :
    f ∉ rest ∧ (⟨m, pt'⟩ : Uvm).Owns (insert f rest) := by
  have before : ∀ {place' g}, pt'.frameAt place' = some g →
      place' ≠ place ∧ pt.frameAt place' = some g := by
    intro place' g found
    rw [places] at found
    by_cases same : place' = place
    · subst same
      rw [Function.update_self] at found
      cases found
    · exact ⟨same, by rwa [Function.update_of_ne same] at found⟩
  refine ⟨owns.apart f ⟨place, had⟩, owns.keeps.mono ?_, ?_, ?_⟩
  · rintro g (⟨place', found⟩ | rfl | others)
    · exact .inl ⟨place', (before found).2⟩
    · exact .inl ⟨place, had⟩
    · exact .inr others
  · intro place₁ place₂ g found₁ found₂
    exact owns.distinct (before found₁).2 (before found₂).2
  · rintro g ⟨place', found⟩ (rfl | others)
    · exact (before found).1 (owns.distinct (before found).2 had)
    · exact owns.apart g ⟨place', (before found).2⟩ others

/-- A frame is allocated. -/
theorem kalloc (owns : u.Owns rest) {m' : Kmem} (alloc : u.kmem.kalloc = some (f, m')) :
    f ∉ rest ∧ (⟨m', u.pagetable⟩ : Uvm).Owns (insert f rest) ∧
      Set.EqOn m'.mem u.kmem.mem (u.pagetable.frames ∪ rest) := by
  obtain ⟨fresh, keeps, mem⟩ := owns.keeps.kalloc alloc
  refine ⟨fun others => fresh (.inr others), ⟨?_, owns.distinct, ?_⟩, mem⟩
  · rw [Set.union_insert]
    exact keeps
  · rintro g own (rfl | others)
    · exact fresh (.inl own)
    · exact owns.apart g own others

/-- A frame of the others is freed. -/
theorem kfree (owns : u.Owns (insert f rest)) (fresh : f ∉ rest) :
    (⟨u.kmem.kfree f, u.pagetable⟩ : Uvm).Owns rest ∧
      Set.EqOn (u.kmem.kfree f).mem u.kmem.mem (u.pagetable.frames ∪ rest) := by
  have keeps := owns.keeps
  rw [Set.union_insert] at keeps
  have other : f ∉ u.pagetable.frames ∪ rest := by
    rintro (own | others)
    · exact owns.apart f own (Set.mem_insert f rest)
    · exact fresh others
  obtain ⟨keeps, mem⟩ := keeps.kfree other
  exact ⟨⟨keeps, owns.distinct, owns.leak.apart⟩, mem⟩

end Owns

end Uvm

namespace Uvm

variable {u u' u'' : Uvm} {m m' : Kmem} {pte : Pte} {rest : Set Frame} {va : Nat}

/-- The leaf entry for a page number. -/
abbrev leafAt (u : Uvm) (vpn : Nat) : Option Pte := u.pagetable.leaves.lookup vpn

theorem leafAt_setLeaf (pt : PageTable) (va : Nat) (pte : Pte) (vpn : Nat) :
    (⟨m, pt.setLeaf va pte⟩ : Uvm).leafAt vpn =
      if vpn = va / PGSIZE then some pte else pt.leaves.lookup vpn := by
  by_cases same : vpn = va / PGSIZE
  · subst same
    simp [leafAt, PageTable.setLeaf]
  · rw [if_neg same]
    exact AList.lookup_insert_ne same

theorem leafAt_clearLeaf (pt : PageTable) (va vpn : Nat) :
    (⟨m, pt.clearLeaf va⟩ : Uvm).leafAt vpn =
      if vpn = va / PGSIZE then none else pt.leaves.lookup vpn := by
  by_cases same : vpn = va / PGSIZE
  · subst same
    simp [leafAt, PageTable.clearLeaf]
  · rw [if_neg same]
    exact AList.lookup_erase_ne same

theorem frame_of_leaf {vpn : Nat} (found : u.leafAt vpn = some pte) :
    pte.pa ∈ u.pagetable.frames := ⟨.leaf vpn, by simp [PageTable.frameAt, found]⟩

/-- The table gets pages of its own, and no entry for a user page changes. -/
structure Grows (u u' : Uvm) (rest : Set Frame) : Prop where
  owns : u'.Owns rest
  mem : Set.EqOn u'.kmem.mem u.kmem.mem (u.pagetable.frames ∪ rest)
  leaves : u'.pagetable.leaves = u.pagetable.leaves
  frames : u.pagetable.frames ⊆ u'.pagetable.frames

theorem Grows.refl (owns : u.Owns rest) : u.Grows u rest :=
  ⟨owns, fun _ _ => rfl, rfl, subset_rfl⟩

theorem Grows.trans (first : u.Grows u' rest) (second : u'.Grows u'' rest) : u.Grows u'' rest where
  owns := second.owns
  mem := (second.mem.mono (Set.union_subset_union_left _ first.frames)).trans first.mem
  leaves := second.leaves.trans first.leaves
  frames := first.frames.trans second.frames

theorem child_grows {level index : Nat} {found : Bool} (owns : u.Owns rest)
    (ran : u.child level index = (found, u')) : u.Grows u' rest := by
  unfold child at ran
  split at ran
  · cases ran
    exact .refl owns
  next vacant =>
  split at ran
  · cases ran
    exact .refl owns
  next pa m alloc =>
  cases ran
  obtain ⟨fresh, allocated, mem⟩ := owns.kalloc alloc
  have places := PageTable.frameAt_addTable u.pagetable level index pa
  have other : pa ∉ u.pagetable.frames := fun own =>
    allocated.apart pa own (Set.mem_insert pa rest)
  have zeroed := allocated.setPage (f := pa) fun _ => 0
  have empty : u.pagetable.frameAt (.table level index) = none := vacant
  refine ⟨zeroed.gain fresh empty places, ?_, rfl, ?_⟩
  · intro f inside
    have apart : f ≠ pa := by
      rintro rfl
      rcases inside with own | others
      · exact other own
      · exact fresh others
    simpa [Kmem.setPage, Function.update_of_ne apart] using mem inside
  · rintro f ⟨place, found⟩
    refine ⟨place, ?_⟩
    rw [places]
    by_cases same : place = .table level index
    · subst same
      rw [empty] at found
      cases found
    · rwa [Function.update_of_ne same]

theorem walkAlloc_grows {found : Bool} (owns : u.Owns rest)
    (ran : u.walkAlloc va = .ok (found, u')) : u.Grows u' rest := by
  unfold walkAlloc at ran
  split at ran
  · cases ran
  obtain ⟨⟨found₂, u₂⟩, first⟩ : ∃ result, u.child 2 (va / 2 ^ 30) = result := ⟨_, rfl⟩
  rw [first] at ran
  have grows := child_grows owns first
  cases found₂ with
  | false =>
      cases ran
      exact grows
  | true =>
      obtain ⟨⟨found₁, u₁⟩, second⟩ : ∃ result, u₂.child 1 (va / 2 ^ 21) = result := ⟨_, rfl⟩
      simp only [second, if_true] at ran
      cases ran
      exact grows.trans (child_grows grows.owns second)

/-- `mappages` installs an entry for a page that has none, or gives up before. -/
theorem mappages_spec {mapped : Bool} (owns : u.Owns (insert pte.pa rest)) (fresh : pte.pa ∉ rest)
    (ran : u.mappages va pte = .ok (mapped, u')) :
    Set.EqOn u'.kmem.mem u.kmem.mem (u.pagetable.frames ∪ insert pte.pa rest) ∧
      if mapped then u.leafAt (va / PGSIZE) = none ∧ u'.Owns rest ∧
        ∀ vpn, u'.leafAt vpn = if vpn = va / PGSIZE then some pte else u.leafAt vpn
      else u'.Owns (insert pte.pa rest) ∧ u'.pagetable.leaves = u.pagetable.leaves := by
  rw [mappages, bind_ok] at ran
  obtain ⟨⟨found, walked⟩, walk, ran⟩ := ran
  have grows := walkAlloc_grows owns walk
  cases found with
  | false =>
      cases ran
      exact ⟨grows.mem, grows.owns, grows.leaves⟩
  | true =>
      simp only [Bool.not_true, Bool.false_eq_true, if_false] at ran
      split at ran
      · cases ran
      next vacant =>
      cases ran
      rw [PageTable.lookup, grows.leaves] at vacant
      rw [if_pos rfl]
      have places := PageTable.frameAt_setLeaf walked.pagetable va pte
      have empty : walked.pagetable.frameAt (.leaf (va / PGSIZE)) = none := by
        simp [PageTable.frameAt, grows.leaves, vacant]
      refine ⟨grows.mem, vacant, grows.owns.gain fresh empty places, fun vpn => ?_⟩
      rw [leafAt_setLeaf, grows.leaves]

/-- Entries for user pages go, and what stays is untouched. -/
structure Shrinks (u u' : Uvm) (rest : Set Frame) : Prop where
  owns : u'.Owns rest
  mem : Set.EqOn u'.kmem.mem u.kmem.mem (u'.pagetable.frames ∪ rest)
  frames : u'.pagetable.frames ⊆ u.pagetable.frames

theorem Shrinks.refl (owns : u.Owns rest) : u.Shrinks u rest := ⟨owns, fun _ _ => rfl, subset_rfl⟩

theorem Shrinks.trans (first : u.Shrinks u' rest) (second : u'.Shrinks u'' rest) :
    u.Shrinks u'' rest where
  owns := second.owns
  mem := second.mem.trans (first.mem.mono (Set.union_subset_union_left _ second.frames))
  frames := second.frames.trans first.frames

/-- An unmapped page belongs to the caller. -/
theorem unmapPage_spec (owns : u.Owns rest) (ran : u.unmapPage va false = .ok u') :
    ∃ pte, u.leafAt (va / PGSIZE) = some pte ∧ pte.pa ∉ rest ∧ u'.Owns (insert pte.pa rest) ∧
      u'.kmem = u.kmem ∧ u'.pagetable.frames ⊆ u.pagetable.frames ∧
      ∀ vpn, u'.leafAt vpn = if vpn = va / PGSIZE then none else u.leafAt vpn := by
  rw [unmapPage, bind_ok] at ran
  obtain ⟨entry, walked, ran⟩ := ran
  have found : u.leafAt (va / PGSIZE) = entry := by
    unfold PageTable.walk at walked
    split at walked
    · cases walked
    · exact Except.ok.inj walked
  cases entry with
  | none =>
      simp only at ran
      split at ran <;> cases ran
  | some pte =>
      simp only at ran
      split at ran
      · cases ran
      cases ran
      have places := PageTable.frameAt_clearLeaf u.pagetable va
      have had : u.pagetable.frameAt (.leaf (va / PGSIZE)) = some pte.pa := by
        simp [PageTable.frameAt, found]
      obtain ⟨fresh, lost⟩ := owns.lose had places
      refine ⟨pte, found, fresh, lost, rfl, ?_, leafAt_clearLeaf u.pagetable va⟩
      rintro f ⟨place, inside⟩
      rw [places] at inside
      by_cases same : place = .leaf (va / PGSIZE)
      · subst same
        rw [Function.update_self] at inside
        cases inside
      · rw [Function.update_of_ne same] at inside
        exact ⟨place, inside⟩

/-- With `do_free` the frame is freed before the entry is cleared. -/
theorem unmapPage_free (u : Uvm) (va : Nat) (ran : u.unmapPage va true = .ok u') :
    ∃ pte cleared, u.leafAt (va / PGSIZE) = some pte ∧ u.unmapPage va false = .ok cleared ∧
      u' = ⟨cleared.kmem.kfree pte.pa, cleared.pagetable⟩ := by
  rw [unmapPage, bind_ok] at ran
  obtain ⟨entry, walked, ran⟩ := ran
  have found : u.leafAt (va / PGSIZE) = entry := by
    unfold PageTable.walk at walked
    split at walked
    · cases walked
    · exact Except.ok.inj walked
  cases entry with
  | none =>
      simp only at ran
      split at ran <;> cases ran
  | some pte =>
      simp only at ran
      split at ran
      · cases ran
      next leaf =>
      cases ran
      refine ⟨pte, ⟨u.kmem, u.pagetable.clearLeaf va⟩, found, ?_, rfl⟩
      rw [unmapPage, walked]
      simp only [bind, Except.bind, if_neg leaf]
      rfl

theorem unmapPage_shrinks (owns : u.Owns rest) (ran : u.unmapPage va true = .ok u') :
    u.Shrinks u' rest ∧ (u.leafAt (va / PGSIZE)).isSome ∧
      ∀ vpn, u'.leafAt vpn = if vpn = va / PGSIZE then none else u.leafAt vpn := by
  obtain ⟨pte, cleared, found, unmapped, rfl⟩ := unmapPage_free u va ran
  obtain ⟨pte', found', fresh, lost, same, frames, leaves⟩ := unmapPage_spec owns unmapped
  rw [found] at found'
  cases found'
  obtain ⟨freed, mem⟩ := lost.kfree fresh
  rw [same] at mem
  refine ⟨⟨freed, ?_, frames⟩, by rw [found]; rfl, leaves⟩
  rw [same]
  exact mem

/-- The pages of a range are unmapped and freed. -/
theorem unmapPages_shrinks {count : Nat} (owns : u.Owns rest)
    (ran : unmapPages true count va u = .ok u') :
    u.Shrinks u' rest ∧
      (∀ vpn, va / PGSIZE ≤ vpn → vpn < va / PGSIZE + count → (u.leafAt vpn).isSome) ∧
      ∀ vpn, u'.leafAt vpn =
        if va / PGSIZE ≤ vpn ∧ vpn < va / PGSIZE + count then none else u.leafAt vpn := by
  induction count generalizing u va with
  | zero =>
      cases ran
      refine ⟨.refl owns, by omega, fun vpn => ?_⟩
      rw [if_neg (by omega)]
  | succ count ih =>
      rw [unmapPages, bind_ok] at ran
      obtain ⟨next, first, ran⟩ := ran
      obtain ⟨shrinks, some, leaves⟩ := unmapPage_shrinks owns first
      obtain ⟨shrinks', some', leaves'⟩ := ih shrinks.owns ran
      have step : (va + PGSIZE) / PGSIZE = va / PGSIZE + 1 := Nat.add_div_right va (by decide)
      rw [step] at some' leaves'
      refine ⟨shrinks.trans shrinks', fun vpn low high => ?_, fun vpn => ?_⟩
      · by_cases same : vpn = va / PGSIZE
        · rw [same]
          exact some
        · have rest := some' vpn (by omega) (by omega)
          rwa [leaves, if_neg same] at rest
      · rw [leaves', leaves]
        split_ifs <;> first | rfl | omega

/-- Without `do_free` the frames of all pages but the first are lost. -/
theorem unmapPages_loses {count : Nat} (owns : u.Owns rest)
    (ran : unmapPages false count va u = .ok u') :
    u'.Owns rest ∧ u'.kmem = u.kmem ∧ u'.pagetable.frames ⊆ u.pagetable.frames ∧
      ∀ vpn, u'.leafAt vpn =
        if va / PGSIZE ≤ vpn ∧ vpn < va / PGSIZE + count then none else u.leafAt vpn := by
  induction count generalizing u va with
  | zero =>
      cases ran
      refine ⟨owns, rfl, subset_rfl, fun vpn => ?_⟩
      rw [if_neg (by omega)]
  | succ count ih =>
      rw [unmapPages, bind_ok] at ran
      obtain ⟨next, first, ran⟩ := ran
      obtain ⟨pte, _, _, lost, kmem, frames, leaves⟩ := unmapPage_spec owns first
      obtain ⟨owns, kmem', frames', leaves'⟩ := ih lost.leak ran
      have step : (va + PGSIZE) / PGSIZE = va / PGSIZE + 1 := Nat.add_div_right va (by decide)
      rw [step] at leaves'
      refine ⟨owns, kmem'.trans kmem, frames'.trans frames, fun vpn => ?_⟩
      rw [leaves', leaves]
      split_ifs <;> first | rfl | omega

end Uvm

end Riscv2os.Xv7
