import Riscv2os.Xv7.MmapMaps

/-!
# The arguments of `mmap` and `munmap`

Both calls get any 64-bit address and any 32-bit numbers. What they can fail with is
collected from the functions they call: page-table code only panics, so an access out
of bounds comes from the descriptor of `mmap` or from the entry that `munmap` selects.
-/

namespace Riscv2os.Xv7

open Riscv2os.Std

/-- A call of `panic`. -/
def Fault.IsPanic (fault : Fault) : Prop := ∃ message, fault = .panic message

namespace Uvm

theorem unmapPage_panics (u : Uvm) (va : Nat) (doFree : Bool) :
    FailsOnly Fault.IsPanic (u.unmapPage va doFree) := by
  refine .bind ?_ fun entry _ => ?_
  · unfold PageTable.walk
    split
    · exact .error ⟨_, rfl⟩
    · exact .ok _
  · cases entry with
    | none =>
        dsimp only
        split <;> exact .error ⟨_, rfl⟩
    | some pte =>
        dsimp only
        split
        · exact .error ⟨_, rfl⟩
        · exact .ok _

theorem unmapPages_panics (doFree : Bool) (count va : Nat) (u : Uvm) :
    FailsOnly Fault.IsPanic (unmapPages doFree count va u) := by
  induction count generalizing va u with
  | zero => exact .ok u
  | succ count ih => exact (u.unmapPage_panics va doFree).bind fun next _ => ih _ next

theorem dropPage_panics (u : Uvm) (va : Nat) (pa : Frame) :
    FailsOnly Fault.IsPanic (u.dropPage va pa) :=
  .bind (unmapPages_panics _ _ _ _) fun _ _ => .ok _

end Uvm

namespace Machine

variable {s s' : Machine} {p : Fin NPROC}

/-- The write-back of a page of a mapping with a file. -/
theorem writeBack_panics {map : MapInfo} {f : Fin NFILE} (backed : map.file = some f)
    (vpageBase va : Nat) (pte : Pte) : FailsOnly Fault.IsPanic (s.writeBack map vpageBase va pte) := by
  unfold writeBack
  split
  · rw [MapInfo.deref_eq_ok.mpr backed]
    refine .bind (.ok f) fun f _ => .bind ?_ fun _ _ => .ok _
    unfold Ftable.ilock
    split
    · exact .error ⟨_, rfl⟩
    · exact .ok _
  · exact .ok s

theorem munmapPage_panics {map : MapInfo} {f : Fin NFILE} (backed : map.file = some f)
    (vpageBase : Nat) (s : Machine) (va : Nat) :
    FailsOnly Fault.IsPanic (munmapPage p map vpageBase s va) := by
  refine .bind ?_ fun entry _ => ?_
  · unfold PageTable.walk
    split
    · exact .error ⟨_, rfl⟩
    · exact .ok _
  · cases entry with
    | none => exact .ok s
    | some pte =>
        exact (writeBack_panics backed vpageBase va pte).bind fun written _ =>
          (Uvm.dropPage_panics _ va pte.pa).bind fun _ _ => .ok _

theorem fileclose_panics (t : Ftable) (f : Fin NFILE) :
    FailsOnly Fault.IsPanic (t.fileclose f) := by
  unfold Ftable.fileclose
  dsimp only
  split
  · exact .error ⟨_, rfl⟩
  split
  · exact .ok _
  · split <;> exact .ok _

theorem filedup_panics (t : Ftable) (f : Fin NFILE) : FailsOnly Fault.IsPanic (t.filedup f) := by
  unfold Ftable.filedup
  split
  · exact .error ⟨_, rfl⟩
  · exact .ok _

/-- A call is guarded: it stays inside the arrays, follows no null pointer, and when it
is rejected nothing has changed. -/
structure Guarded {α : Type} (s : Machine) (rejected : α) (result : Except Fault (α × Machine)) :
    Prop where
  inside : result ≠ .error .outOfBounds
  nonNull : result ≠ .error .nullPointer
  rejects : ∀ {s'}, result = .ok (rejected, s') → s' = s

/-- A call that only panics stays inside the arrays and follows no null pointer. -/
theorem Guarded.ofPanics {α : Type} {rejected : α} {result : Except Fault (α × Machine)}
    (panics : FailsOnly Fault.IsPanic result)
    (rejects : ∀ {s'}, result = .ok (rejected, s') → s' = s) : Guarded s rejected result where
  inside failed := by
    obtain ⟨_, impossible⟩ := panics _ failed
    cases impossible
  nonNull failed := by
    obtain ⟨_, impossible⟩ := panics _ failed
    cases impossible
  rejects := rejects

theorem sysMmap_rejects {addr : Nat} {length prot flags fd offset : BitVec 32}
    (ran : s.sysMmap p addr length prot flags fd offset = .ok (none, s')) : s' = s := by
  rcases sysMmap_cases ran with ⟨_, rfl⟩ | ⟨_, _, _, _, _, _, _, _, impossible, _⟩
  · rfl
  · cases impossible

theorem sysMunmap_rejects {addr : Nat} {length : BitVec 32}
    (ran : s.sysMunmap p addr length = .ok (false, s')) : s' = s := by
  rcases sysMunmap_cases ran with ⟨_, rfl⟩ | ⟨_, _, impossible, _⟩
  · rfl
  · cases impossible

/-- The index of a descriptor as the C code computes it. -/
theorem fd_inside (fd : BitVec 32) : fd.toNat < NOFILE ↔ 0 ≤ fd.toInt ∧ fd.toInt < NOFILE := by
  have bound := fd.isLt
  have signed := BitVec.toInt_eq_toNat_cond fd
  simp only [NOFILE]
  split at signed <;> omega

/-- `mmap` with a descriptor inside the table, or arguments that are refused before the
descriptor is used. -/
theorem sysMmap_panics {addr : Nat} {length prot flags fd offset : BitVec 32}
    (checked : addr ≠ 0 ∨ offset ≠ 0 ∨ 0 ≤ fd.toInt ∧ fd.toInt < NOFILE) :
    FailsOnly Fault.IsPanic (s.sysMmap p addr length prot flags fd offset) := by
  unfold sysMmap
  split
  · exact .ok _
  next zero =>
  have inside : fd.toNat < NOFILE := (fd_inside fd).mpr (by
    rcases checked with addr | offset | inside
    · exact absurd (.inl addr) zero
    · exact absurd (.inr offset) zero
    · exact inside)
  refine .bind ?_ fun entry _ => ?_
  · rw [ofile, dif_pos inside]
    exact .ok _
  cases entry with
  | none => exact .ok _
  | some f =>
      dsimp only
      split
      · exact .ok _
      split
      · exact .ok _
      split
      · exact .ok _
      · exact (filedup_panics _ _).bind fun _ _ => .ok _

/-- `munmap` of an address below the end of the window, in a process whose live
mappings have files. -/
theorem sysMunmap_panics {addr : Nat} {length : BitVec 32} (below : addr ≠ MMAP_VEND)
    (backed : ∀ i, ((s.proc p).minfo i).used = true → ∃ f, ((s.proc p).minfo i).file = some f) :
    FailsOnly Fault.IsPanic (s.sysMunmap p addr length) := by
  unfold sysMunmap
  split
  · exact .ok _
  next window =>
  refine .bind ?_ fun i _ => ?_
  · have inside : (pgRoundDown addr - MMAP_VSTART) / MMAP_SIZE < MMAP_NUM := by
      have down : pgRoundDown addr ≤ addr := Nat.div_mul_le_self addr PGSIZE
      simp only [MMAP_VSTART, MMAP_VEND, MMAP_NUM, MMAP_SIZE] at window below ⊢
      omega
    unfold mapSel
    dsimp only
    rw [dif_pos inside]
    exact .ok _
  dsimp only
  split
  · exact .ok _
  next unused =>
  obtain ⟨f, file⟩ := backed i (by simpa using unused)
  refine .bind (.foldlM (fun va s => munmapPage_panics file _ s va) _ _) fun looped _ => ?_
  split
  · rw [MapInfo.deref_eq_ok.mpr file]
    exact .bind (.ok f) fun f _ => (fileclose_panics _ f).bind fun _ _ => .ok _
  · exact .ok _

end Machine

/-- In every reachable state `mmap` is guarded unless it gets to the lookup of a
descriptor outside the table, and `munmap` unless its address is the end of the window,
which its check lets through. -/
theorem mmapCalls_guarded_iff {s : MmapSys} (run : mmapSystem.Reachable s) (p : Fin NPROC) :
    (∀ addr length prot flags fd offset,
      s.machine.Guarded none (s.machine.sysMmap p addr length prot flags fd offset) ↔
        addr ≠ 0 ∨ offset ≠ 0 ∨ 0 ≤ fd.toInt ∧ fd.toInt < NOFILE) ∧
      ∀ addr length, s.machine.Guarded false (s.machine.sysMunmap p addr length) ↔
        addr ≠ MMAP_VEND := by
  constructor
  · intro addr length prot flags fd offset
    constructor
    · intro guarded
      by_contra unchecked
      rw [not_or, not_or, not_not, not_not, ← Machine.fd_inside] at unchecked
      obtain ⟨rfl, rfl, outside⟩ := unchecked
      apply guarded.inside
      rw [Machine.sysMmap, if_neg (by simp), Machine.ofile, dif_neg outside]
      rfl
    · exact fun checked => .ofPanics (Machine.sysMmap_panics checked) Machine.sysMmap_rejects
  · intro addr length
    constructor
    · rintro guarded rfl
      apply guarded.inside
      rfl
    · exact fun below =>
        .ofPanics (Machine.sysMunmap_panics below (map_file_of_run run p)) Machine.sysMunmap_rejects

/-- The kernel right after the boot. -/
theorem mmapCalls_guarded_firstProcess :
    firstProcess.machine.Guarded none (firstProcess.machine.sysMmap 0 0 4096 1 1 3 0) ∧
      firstProcess.machine.Guarded false (firstProcess.machine.sysMunmap 0 MMAP_VSTART 4096) :=
  have iffs := mmapCalls_guarded_iff (.initial firstProcess_boot) 0
  ⟨(iffs.1 0 4096 1 1 3 0).mpr (by decide), (iffs.2 MMAP_VSTART 4096).mpr (by decide)⟩

/-- Right after the boot, `mmap` of descriptor -1 reads before the start of `ofile`, and
`munmap` of the end of the window uses `minfo[32]`. -/
theorem mmapCalls_unguarded :
    ∃ s, mmapSystem.Reachable s ∧
      ¬ s.machine.Guarded none (s.machine.sysMmap 0 0 4096 PROT_READ MAP_SHARED (-1) 0) ∧
      ¬ s.machine.Guarded false (s.machine.sysMunmap 0 MMAP_VEND 4096) :=
  ⟨firstProcess, .initial firstProcess_boot, fun guarded => guarded.inside rfl,
    fun guarded => guarded.inside rfl⟩

end Riscv2os.Xv7
