import Mathlib
import Riscv2os.Xv7.MmapMaps

/-!
# Where the ranges of mappings lie

The window for mappings has a part for each entry of `minfo`, and `map_alloc` starts a
mapping at the start of its part. As long as lengths fit the parts, the ranges of live
mappings stay in their own parts, however they are cut.
-/

namespace Riscv2os.Xv7

open Riscv2os.Std

/-- The start of the part of the window for entry `i`. -/
abbrev windowStart (i : Fin MMAP_NUM) : Nat := MMAP_VSTART + i * MMAP_SIZE

theorem pgRoundDown_windowStart (i : Fin MMAP_NUM) : pgRoundDown (windowStart i) = windowStart i := by
  unfold pgRoundDown windowStart
  simp only [MMAP_VSTART, MMAP_SIZE, PGSIZE]
  omega

theorem windowStart_lt (i : Fin MMAP_NUM) : windowStart i < MMAP_VEND := by
  have index := i.isLt
  simp only [windowStart, MMAP_VSTART, MMAP_VEND, MMAP_NUM, MMAP_SIZE] at index ⊢
  omega

/-- The start of a part selects its entry. -/
theorem mapSel_windowStart (i : Fin MMAP_NUM) : mapSel (windowStart i) = .ok i := by
  have index : (windowStart i - MMAP_VSTART) / MMAP_SIZE = i := by
    simp only [windowStart, MMAP_VSTART, MMAP_SIZE]
    omega
  unfold mapSel
  simp only [index, i.isLt, dite_true]

/-- The addresses of a mapping. -/
def MapInfo.range (map : MapInfo) : Set Nat := Set.Ico map.vstart map.vend

/-- The mapping in entry `i` lies where it should. -/
structure Machine.Placed (s : Machine) (p : Fin NPROC) (i : Fin MMAP_NUM) : Prop where
  nonempty : ((s.proc p).minfo i).range.Nonempty
  window : ((s.proc p).minfo i).range ⊆ Set.Ico (windowStart i) (windowStart i + MMAP_SIZE)
  maps : ∀ j, j ≠ i → ((s.proc p).minfo j).used = true →
    Disjoint ((s.proc p).minfo i).range ((s.proc p).minfo j).range
  heap : Disjoint ((s.proc p).minfo i).range (Set.Ico 0 (s.proc p).sz)
  trap : Disjoint ((s.proc p).minfo i).range (Set.Ico TRAPFRAME MAXVA)

/-- Mappings get a positive length that fits a part of the window, and no mapping is
unmapped from its start with a negative length. -/
def FitsWindow (s : MmapSys) : MmapAct → Prop
  | .mmap _ _ length _ _ _ _ => 0 < length.toInt ∧ length.toInt ≤ MMAP_SIZE
  | .munmap p addr length => 0 ≤ length.toInt ∨
      ∀ i, ((s.machine.proc p).minfo i).used = true → ((s.machine.proc p).minfo i).vstart ≠ addr
  | _ => True

/-- A live mapping reaches neither below nor above its part of the window. -/
def MapInfo.Fits (i : Fin MMAP_NUM) (map : MapInfo) : Prop :=
  map.used = true → windowStart i ≤ map.vstart ∧ map.vend ≤ windowStart i + MMAP_SIZE

/-- The end of a new mapping. -/
theorem newMap_vend {i : Fin MMAP_NUM} {length prot flags : BitVec 32} {f : Fin NFILE}
    (positive : 0 < length.toInt) :
    (Machine.newMap i length prot flags f).vend =
      windowStart i + (length.toNat + PGSIZE - 1) / PGSIZE * PGSIZE := by
  have bound := length.isLt
  have index := i.isLt
  have signed := BitVec.toInt_eq_toNat_cond length
  have small : length.toNat < 2 ^ 31 := by
    split at signed <;> omega
  simp only [Machine.newMap, uint64_eq, if_pos small, pgRoundUp, pgRoundDown]
  simp only [windowStart, MMAP_VSTART, MMAP_NUM, MMAP_SIZE, PGSIZE] at index ⊢
  omega

theorem newMap_fits {i : Fin MMAP_NUM} {length prot flags : BitVec 32} {f : Fin NFILE}
    (positive : 0 < length.toInt) (short : length.toInt ≤ MMAP_SIZE) :
    (Machine.newMap i length prot flags f).Fits i := by
  intro _
  refine ⟨le_rfl, ?_⟩
  have signed := BitVec.toInt_eq_toNat_cond length
  rw [newMap_vend positive]
  simp only [MMAP_SIZE, PGSIZE] at short ⊢
  split at signed <;> omega

theorem cutMap_fits {i : Fin MMAP_NUM} {map : MapInfo} {addr : Nat} {length : BitVec 32}
    (fits : map.Fits i) (used : map.used = true) (low : MMAP_VSTART ≤ addr)
    (sel : mapSel (pgRoundDown addr) = .ok i) (forwards : 0 ≤ length.toInt ∨ map.vstart ≠ addr) :
    (Machine.cutMap map addr (Machine.munmapStop addr length)).Fits i := by
  intro _
  obtain ⟨start, stop⟩ := fits used
  have index := mapSel_ok sel
  have below := mapSel_lt sel
  have signed := BitVec.toInt_eq_toNat_cond length
  have bound := length.isLt
  have down : pgRoundDown addr ≤ addr ∧ addr < pgRoundDown addr + PGSIZE := by
    unfold pgRoundDown
    simp only [PGSIZE]
    omega
  have inside : windowStart i ≤ addr ∧ addr < windowStart i + MMAP_SIZE := by
    have aligned : pgRoundDown addr = addr / PGSIZE * PGSIZE := rfl
    simp only [windowStart, MMAP_VSTART, MMAP_VEND, MMAP_NUM, MMAP_SIZE, PGSIZE]
      at index below down low aligned ⊢
    omega
  have high : addr ≤ MMAP_VEND := by
    have last := i.isLt
    simp only [windowStart, MMAP_VSTART, MMAP_VEND, MMAP_NUM, MMAP_SIZE] at inside last ⊢
    omega
  obtain ⟨_, _, value⟩ := munmapStop_bounds length low high
  constructor
  · unfold Machine.cutMap
    dsimp only
    split
    · next atStart =>
      have forwards := forwards.resolve_right (not_not.mpr atStart)
      rw [value, if_pos (by split at signed <;> omega)]
      omega
    · exact start
  · unfold Machine.cutMap
    dsimp only
    split
    · exact inside.2.le
    · exact stop

/-- The ranges of live mappings stay in their parts of the window. -/
theorem fits_of_run {s : MmapSys} (run : mmapSystem.ReachableUnder FitsWindow s) (p : Fin NPROC)
    (i : Fin MMAP_NUM) : ((s.machine.proc p).minfo i).Fits i := by
  refine maps_of_run (P := fun i map => map.Fits i) ?_ ?_ ?_ ?_ run p i
  · intro i used
    cases used
  · intro i map _ used
    cases used
  · intro s p addr length prot flags fd offset i f allowed
    exact newMap_fits allowed.1 allowed.2
  · intro s p addr length i allowed low sel used fits
    exact cutMap_fits fits used low sel (allowed.imp_right fun others => others i used)

/-- User memory ends far below the window. -/
theorem sz_small {s : MmapSys} (run : mmapSystem.Reachable s) (p : Fin NPROC) :
    (s.machine.proc p).sz ≤ 2 ^ 27 := by
  have inv := frameInv_of_reachable run
  by_cases unused : (s.machine.proc p).state = .unused
  · rw [inv.unused p unused]
    exact Nat.zero_le _
  · exact (inv.pages p unused).sz_le (inv.owns unused)

/-- A range inside its part of the window is apart from whatever stays outside. -/
theorem MapInfo.Fits.placed {m : Machine} {p : Fin NPROC} {i : Fin MMAP_NUM}
    (fits : ∀ j, ((m.proc p).minfo j).Fits j) (used : ((m.proc p).minfo i).used = true)
    (nonempty : ((m.proc p).minfo i).range.Nonempty) (small : (m.proc p).sz ≤ 2 ^ 27) :
    m.Placed p i := by
  have window : ∀ {j}, ((m.proc p).minfo j).used = true →
      ((m.proc p).minfo j).range ⊆ Set.Ico (windowStart j) (windowStart j + MMAP_SIZE) :=
    fun {j} used => Set.Ico_subset_Ico (fits j used).1 (fits j used).2
  have index := i.isLt
  refine ⟨nonempty, window used, ?_, ?_, ?_⟩
  · intro j other usedJ
    refine Set.disjoint_of_subset (window used) (window usedJ) ?_
    rw [Set.Ico_disjoint_Ico]
    have apart : (j : Nat) ≠ i := Fin.val_ne_of_ne other
    simp only [windowStart, MMAP_SIZE]
    omega
  · refine Set.disjoint_of_subset_left (window used) ?_
    rw [Set.Ico_disjoint_Ico]
    simp only [windowStart, MMAP_VSTART, MMAP_SIZE]
    omega
  · refine Set.disjoint_of_subset_left (window used) ?_
    rw [Set.Ico_disjoint_Ico]
    simp only [windowStart, MMAP_VSTART, MMAP_NUM, MMAP_SIZE, TRAPFRAME, MAXVA, PGSIZE] at index ⊢
    omega

/-- A mapping with any page has a positive length. -/
theorem newMap_positive {i : Fin MMAP_NUM} {length prot flags : BitVec 32} {f : Fin NFILE}
    (more : windowStart i < (Machine.newMap i length prot flags f).vend) : 0 < length.toInt := by
  have bound := length.isLt
  have index := i.isLt
  have signed := BitVec.toInt_eq_toNat_cond length
  by_contra negative
  simp only [Machine.newMap, uint64_eq, pgRoundUp, pgRoundDown] at more
  simp only [windowStart, MMAP_VSTART, MMAP_NUM, MMAP_SIZE, PGSIZE] at index more
  split at signed <;> split at more <;> omega

/-- A mapping that lies in its part of the window has a positive length that fits. -/
theorem newMap_range {i : Fin MMAP_NUM} {length prot flags : BitVec 32} {f : Fin NFILE}
    (nonempty : (Machine.newMap i length prot flags f).range.Nonempty)
    (window : (Machine.newMap i length prot flags f).range ⊆
      Set.Ico (windowStart i) (windowStart i + MMAP_SIZE)) :
    0 < length.toInt ∧ length.toInt ≤ MMAP_SIZE := by
  have more : windowStart i < (Machine.newMap i length prot flags f).vend :=
    Set.nonempty_Ico.mp nonempty
  have positive := newMap_positive more
  refine ⟨positive, ?_⟩
  have signed := BitVec.toInt_eq_toNat_cond length
  have last := (Set.Ico_subset_Ico_iff more).mp window
  rw [newMap_vend positive] at last
  simp only [MMAP_SIZE, PGSIZE] at last ⊢
  split at signed <;> omega

/-- Whether a mapping that has just been entered lies where it should depends on its
length alone. -/
theorem mmap_placed_iff {s : MmapSys} (run : mmapSystem.ReachableUnder FitsWindow s)
    {p : Fin NPROC} {addr : Nat} {length prot flags fd offset : BitVec 32} {va : Nat}
    {machine : Machine}
    (ran : s.machine.sysMmap p addr length prot flags fd offset = .ok (some va, machine)) :
    (∃ i, ((machine.proc p).minfo i).used = true ∧ ((machine.proc p).minfo i).vstart = va ∧
      machine.Placed p i) ↔ 0 < length.toInt ∧ length.toInt ≤ MMAP_SIZE := by
  rcases Machine.sysMmap_cases ran with
    ⟨impossible, _⟩ | ⟨f, i, mapped, ftable, _, _, found, _, returned, rfl⟩
  · cases impossible
  cases returned
  have unused := (Machine.mapAlloc_cases found).1
  have entry : ∀ j, ((({ s.machine with ftable := ftable } : Machine).updateMap p i fun _ =>
      Machine.newMap i length prot flags f).proc p).minfo j =
        if j = i then Machine.newMap i length prot flags f else (s.machine.proc p).minfo j := by
    intro j
    rw [Machine.updateMap_minfo]
    simp
  constructor
  · rintro ⟨j, used, start, placed⟩
    have atStart : windowStart i ∈ ((((({ s.machine with ftable := ftable } : Machine).updateMap p i
        fun _ => Machine.newMap i length prot flags f).proc p).minfo j).range) :=
      ⟨start.le, start.ge.trans_lt (Set.nonempty_Ico.mp placed.nonempty)⟩
    have near := placed.window atStart
    obtain rfl : j = i := by
      have := near.1
      have := near.2
      apply Fin.ext
      simp only [windowStart, MMAP_SIZE] at *
      omega
    have nonempty := placed.nonempty
    have window := placed.window
    rw [entry, if_pos rfl] at nonempty window
    exact newMap_range nonempty window
  · rintro ⟨positive, short⟩
    refine ⟨i, ?_, ?_, MapInfo.Fits.placed ?_ ?_ ?_ ?_⟩
    · rw [entry, if_pos rfl]
      rfl
    · rw [entry, if_pos rfl]
      rfl
    · intro j
      rw [entry]
      split
      · next same =>
        subst same
        exact newMap_fits positive short
      · exact fits_of_run run p j
    · rw [entry, if_pos rfl]
      rfl
    · rw [entry, if_pos rfl]
      refine Set.nonempty_Ico.mpr ?_
      rw [newMap_vend positive]
      have signed := BitVec.toInt_eq_toNat_cond length
      simp only [Machine.newMap, windowStart, PGSIZE]
      split at signed <;> omega
    · have small := sz_small (run.mono fun _ => trivial) p
      simpa [Machine.updateMap, Machine.updateProc] using small

/-- A first mapping of one page lies where it should. -/
theorem mmap_placed_firstMapping : ∃ machine,
    firstFile.machine.sysMmap 0 0 4096 PROT_READ MAP_SHARED 0 0 =
      .ok (some MMAP_VSTART, machine) ∧
      ∃ i, ((machine.proc 0).minfo i).used = true ∧
        ((machine.proc 0).minfo i).vstart = MMAP_VSTART ∧ machine.Placed 0 i :=
  ⟨_, rfl, (@mmap_placed_iff firstFile (firstFile_reachable trivial) 0 0 4096 PROT_READ MAP_SHARED 0 0
    _ _ rfl).mpr (by decide)⟩

/-- After a mapping of 2 MiB the next one lies inside it. -/
theorem mmap_misplaced_afterLong :
    ¬ ∀ s, mmapSystem.Reachable s → ∀ p addr length prot flags fd offset va machine,
      s.machine.sysMmap p addr length prot flags fd offset = .ok (some va, machine) →
        ∃ i, ((machine.proc p).minfo i).used = true ∧ ((machine.proc p).minfo i).vstart = va ∧
          machine.Placed p i := by
  intro placed
  have opened : mmapSystem.Reachable firstFile := firstFile_reachable trivial
  have mapped := opened.step trivial (@MmapStep.mmap firstFile 0 0 2097152
    PROT_READ MAP_SHARED 0 0 _ _ _ _ ⟨rfl, rfl⟩ rfl rfl)
  obtain ⟨i, used, start, second⟩ :=
    placed _ mapped 0 0 4096 PROT_READ MAP_SHARED 0 0 (windowStart 1) _ rfl
  obtain rfl : i = 1 := by
    clear second
    revert i
    decide
  have apart := second.maps 0 (by decide) rfl
  have inside : windowStart 1 ∈ Set.Ico (windowStart 1) (windowStart 1 + 4096) := by decide
  have overlap : windowStart 1 ∈ Set.Ico (windowStart 0) (windowStart 0 + 2097152) := by decide
  exact Set.disjoint_left.mp apart inside overlap

end Riscv2os.Xv7
