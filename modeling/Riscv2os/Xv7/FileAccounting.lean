import Riscv2os.Xv7.MmapSteps
import Riscv2os.Xv7.MmapCalls

/-!
# The reference counts of open files

A file is used by entries of tables of open files and by mappings. `sys_mmap` and
`sys_munmap` count a mapping, but `fork` copies mappings and `exit` drops them
without a call of `filedup` or `fileclose`. The counts are right in every run in
which no process forks or exits while it has a mapping.
-/

namespace Riscv2os.Xv7

open Riscv2os.Std

/-- How often a process uses a file. -/
def Proc.uses (proc : Proc) (f : Fin NFILE) : Int :=
  ∑ fd, (if proc.ofile fd = some f then 1 else 0) +
    ∑ i, (if (proc.minfo i).used = true ∧ (proc.minfo i).file = some f then 1 else 0)

namespace Proc

variable (proc : Proc) (f : Fin NFILE)

/-- A store into the table of open files. -/
theorem uses_ofile (fd : Fin NOFILE) (entry : Option (Fin NFILE)) :
    { proc with ofile := Function.update proc.ofile fd entry }.uses f =
      proc.uses f + ((if entry = some f then 1 else 0) -
        if proc.ofile fd = some f then 1 else 0) := by
  have sum := sum_update proc.ofile (fun entry => if entry = some f then (1 : Int) else 0) fd entry
  simp only [uses, sum]
  ring

/-- A store into the table of mappings. -/
theorem uses_minfo (i : Fin MMAP_NUM) (map : MapInfo) :
    { proc with minfo := Function.update proc.minfo i map }.uses f =
      proc.uses f + ((if map.used = true ∧ map.file = some f then 1 else 0) -
        if (proc.minfo i).used = true ∧ (proc.minfo i).file = some f then 1 else 0) := by
  have sum := sum_update proc.minfo
    (fun map => if map.used = true ∧ map.file = some f then (1 : Int) else 0) i map
  simp only [uses, sum]
  ring

/-- A change of the bounds of a mapping. -/
theorem uses_minfo_eq (i : Fin MMAP_NUM) (map : MapInfo)
    (same : map.used = (proc.minfo i).used ∧ map.file = (proc.minfo i).file) :
    { proc with minfo := Function.update proc.minfo i map }.uses f = proc.uses f := by
  rw [uses_minfo]
  simp only [same.1, same.2]
  ring

theorem uses_nonneg : 0 ≤ proc.uses f := by
  apply add_nonneg <;> apply Finset.sum_nonneg <;> intro _ _ <;> split <;> decide

/-- A process with a mapping uses its file. -/
theorem uses_pos_of_used {i : Fin MMAP_NUM} (used : (proc.minfo i).used = true)
    (file : (proc.minfo i).file = some f) : 0 < proc.uses f := by
  have fds : (0 : Int) ≤ ∑ fd, (if proc.ofile fd = some f then 1 else 0) :=
    Finset.sum_nonneg fun _ _ => by split <;> decide
  have maps : (1 : Int) ≤
      ∑ j, (if (proc.minfo j).used = true ∧ (proc.minfo j).file = some f then 1 else 0) := by
    have single := Finset.single_le_sum (f := fun j => if (proc.minfo j).used = true ∧
      (proc.minfo j).file = some f then (1 : Int) else 0)
      (fun _ _ => by split <;> decide) (Finset.mem_univ i)
    simpa [used, file] using single
  simp only [uses]
  omega

/-- A process with no open file and no mapping uses nothing. -/
theorem uses_eq_zero (notOpen : ∀ fd, proc.ofile fd = none)
    (notMapped : ∀ i, (proc.minfo i).used = false) : proc.uses f = 0 := by
  simp [uses, notOpen, notMapped]

end Proc

namespace Machine

/-- How often a file is used. -/
def uses (s : Machine) (f : Fin NFILE) : Int := ∑ p, (s.proc p).uses f

theorem uses_updateProc (s : Machine) (p : Fin NPROC) (change : Proc → Proc) (f : Fin NFILE) :
    (s.updateProc p change).uses f =
      s.uses f + ((change (s.proc p)).uses f - (s.proc p).uses f) :=
  sum_update s.proc (fun proc => proc.uses f) p (change (s.proc p))

theorem uses_nonneg (s : Machine) (f : Fin NFILE) : 0 ≤ s.uses f :=
  Finset.sum_nonneg fun _ _ => Proc.uses_nonneg _ _

theorem uses_le (s : Machine) (p : Fin NPROC) (f : Fin NFILE) : (s.proc p).uses f ≤ s.uses f :=
  Finset.single_le_sum (f := fun p => (s.proc p).uses f) (fun _ _ => Proc.uses_nonneg _ _)
    (Finset.mem_univ p)

/-- The reference counts of files are right: each counts its uses, a file behind a
mapping is open, and a file without uses is closed. -/
structure FilesAccounted (s : Machine) : Prop where
  counted : ∀ f, (s.ftable.file f).ref = s.uses f
  backed : ∀ p i, ((s.proc p).minfo i).used = true → ∃ f, ((s.proc p).minfo i).file = some f ∧
    1 ≤ (s.ftable.file f).ref ∧ (s.ftable.file f).type = .inode
  closed : ∀ f, s.uses f = 0 → (s.ftable.file f).ref = 0 ∧ (s.ftable.file f).type = .none

/-- What the steps of a run keep true. -/
structure FileInv (s : Machine) : Prop where
  counted : ∀ f, (s.ftable.file f).ref = s.uses f
  idle : ∀ p, (s.proc p).state ≠ .running →
    (∀ fd, (s.proc p).ofile fd = none) ∧ ∀ i, ((s.proc p).minfo i).used = false
  backed : ∀ p i, ((s.proc p).minfo i).used = true → ∃ f, ((s.proc p).minfo i).file = some f ∧
    (s.ftable.file f).type = .inode
  closed : ∀ f, (s.ftable.file f).ref = 0 → (s.ftable.file f).type = .none

theorem FileInv.accounted {s : Machine} (inv : s.FileInv) : s.FilesAccounted where
  counted := inv.counted
  backed p i used := by
    obtain ⟨f, file, isInode⟩ := inv.backed p i used
    have positive := (s.proc p).uses_pos_of_used f used file
    have bound := s.uses_le p f
    have counted := inv.counted f
    exact ⟨f, file, by omega, isInode⟩
  closed f unused := by
    have zero := inv.counted f
    rw [unused] at zero
    exact ⟨zero, inv.closed f zero⟩

namespace FileInv

variable {s s' : Machine} {p : Fin NPROC}

/-- The invariant is about files, the tables of processes and who may have entries. -/
theorem of_same (inv : s.FileInv) (file : s'.ftable.file = s.ftable.file)
    (tables : ∀ q, (s'.proc q).ofile = (s.proc q).ofile ∧ (s'.proc q).minfo = (s.proc q).minfo)
    (idle : ∀ q, (s'.proc q).state ≠ .running → (s.proc q).state ≠ .running) : s'.FileInv := by
  have uses : ∀ f, s'.uses f = s.uses f := by
    intro f
    apply Finset.sum_congr rfl
    intro q _
    simp only [Proc.uses, tables]
  constructor
  · intro f
    rw [file, uses]
    exact inv.counted f
  · intro q isIdle
    rw [(tables q).1, (tables q).2]
    exact inv.idle q (idle q isIdle)
  · intro q i used
    rw [(tables q).2] at used ⊢
    rw [file]
    exact inv.backed q i used
  · rw [file]
    exact inv.closed

/-- What works on pages keeps the counts right. -/
theorem of_kept (inv : s.FileInv) (kept : Kept s s') : s'.FileInv :=
  inv.of_same kept.file (fun q => ⟨kept.ofile q, kept.minfo q⟩)
    fun q idle => by rwa [kept.state] at idle

/-- What changes sizes keeps the counts right. -/
theorem of_resized (inv : s.FileInv) (resized : Resized s s') : s'.FileInv :=
  inv.of_same (by rw [resized.ftable])
    (fun q => by rw [resized.proc q]; exact ⟨rfl, rfl⟩)
    fun q idle => by rwa [resized.proc q] at idle

/-- One process changes its uses and the files are counted accordingly. -/
theorem update (inv : s.FileInv) {change : Proc → Proc} {ftable : Ftable}
    (counted : ∀ f, (ftable.file f).ref = (s.ftable.file f).ref +
      ((change (s.proc p)).uses f - (s.proc p).uses f))
    (idle : (change (s.proc p)).state ≠ .running →
      (∀ fd, (change (s.proc p)).ofile fd = none) ∧ ∀ i, ((change (s.proc p)).minfo i).used = false)
    (maps : ∀ i, ((change (s.proc p)).minfo i).used = true →
      ∃ f, ((change (s.proc p)).minfo i).file = some f ∧ (s.ftable.file f).type = .inode)
    (type : ∀ f, (ftable.file f).ref ≠ 0 → (s.ftable.file f).type = .inode →
      (ftable.file f).type = .inode)
    (closed : ∀ f, (ftable.file f).ref = 0 → (ftable.file f).type = .none) :
    (({ s with ftable := ftable } : Machine).updateProc p change).FileInv := by
  obtain ⟨next, isNext⟩ : ∃ next, ({ s with ftable := ftable } : Machine).updateProc p change = next :=
    ⟨_, rfl⟩
  have own : next.proc p = change (s.proc p) := by
    rw [← isNext]
    exact Function.update_self ..
  have other : ∀ q, q ≠ p → next.proc q = s.proc q := fun q apart => by
    rw [← isNext]
    exact Function.update_of_ne apart ..
  have files : next.ftable = ftable := by
    rw [← isNext]
    rfl
  have refs : ∀ f, (next.ftable.file f).ref = next.uses f := by
    intro f
    rw [files, counted, inv.counted, ← isNext, uses_updateProc]
    rfl
  rw [isNext]
  constructor
  · exact refs
  · intro q
    by_cases same : q = p
    · subst same
      rw [own]
      exact idle
    · rw [other q same]
      exact inv.idle q
  · intro q i used
    have before : ∃ f, ((next.proc q).minfo i).file = some f ∧
        (s.ftable.file f).type = .inode := by
      by_cases same : q = p
      · subst same
        rw [own] at used ⊢
        exact maps i used
      · rw [other q same] at used ⊢
        exact inv.backed q i used
    obtain ⟨f, file, isInode⟩ := before
    have positive := (next.proc q).uses_pos_of_used f used file
    have bound := next.uses_le q f
    have ref := refs f
    rw [files] at ref ⊢
    exact ⟨f, file, type f (by omega) isInode⟩
  · rw [files]
    exact closed

end FileInv

end Machine

/-- A call of `filedup` that returns. -/
theorem Ftable.filedup_cases {t t' : Ftable} {f : Fin NFILE} (dup : t.filedup f = .ok t') :
    1 ≤ (t.file f).ref ∧ t' = t.updateFile f fun file => { file with ref := file.ref + 1 } := by
  unfold filedup at dup
  split at dup
  · cases dup
  · cases dup
    exact ⟨by omega, rfl⟩

/-- A call of `fileclose` that returns. -/
theorem Ftable.fileclose_cases {t t' : Ftable} {f : Fin NFILE} (closed : t.fileclose f = .ok t') :
    1 ≤ (t.file f).ref ∧ (t'.file f).ref = (t.file f).ref - 1 ∧
      (t'.file f).type = (if (t.file f).ref = 1 then .none else (t.file f).type) ∧
      ∀ g, g ≠ f → t'.file g = t.file g := by
  unfold fileclose at closed
  simp only at closed
  split at closed
  · cases closed
  split at closed
  · cases closed
    refine ⟨by omega, by simp [updateFile], ?_, fun g apart => by simp [updateFile, apart]⟩
    rw [if_neg (by omega)]
    simp [updateFile]
  · have last : (t.file f).ref = 1 := by omega
    have same : t'.file = (t.updateFile f fun file => { file with ref := 0, type := .none }).file := by
      split at closed <;> cases closed <;> rfl
    rw [last, same]
    exact ⟨le_refl 1, by simp [updateFile], by simp [updateFile],
      fun g apart => by simp [updateFile, apart]⟩

namespace Machine

namespace FileInv

variable {s s' : Machine} {p : Fin NPROC} {f : Fin NFILE} {fd : Fin NOFILE}

/-- An unused entry of a table of open files gets a file, which is counted. -/
theorem open_ (inv : s.FileInv) {ftable : Ftable} (running : (s.proc p).state = .running)
    (unused : (s.proc p).ofile fd = none)
    (ref : (ftable.file f).ref = (s.ftable.file f).ref + 1)
    (type : (s.ftable.file f).type = .inode → (ftable.file f).type = .inode)
    (others : ∀ g, g ≠ f → ftable.file g = s.ftable.file g) :
    (({ s with ftable := ftable } : Machine).updateProc p fun proc =>
      { proc with ofile := Function.update proc.ofile fd (some f) }).FileInv := by
  apply inv.update
  · intro g
    rw [Proc.uses_ofile, unused]
    by_cases same : g = f
    · subst same
      simp [ref]
    · rw [others g same]
      simp [Ne.symm same]
  · exact fun idle => absurd running idle
  · exact inv.backed p
  · intro g open_ inode
    by_cases same : g = f
    · subst same
      exact type inode
    · rwa [others g same]
  · intro g zero
    by_cases same : g = f
    · subst same
      have := inv.counted g
      have := s.uses_nonneg g
      omega
    · rw [others g same] at zero ⊢
      exact inv.closed g zero

/-- `fileclose` of a use that is given up. -/
theorem close (inv : s.FileInv) (change : Proc → Proc) {ftable : Ftable}
    (closed : s.ftable.fileclose f = .ok ftable)
    (running : (change (s.proc p)).state = .running)
    (uses : ∀ g, (change (s.proc p)).uses g = (s.proc p).uses g - if f = g then 1 else 0)
    (maps : ∀ i, ((change (s.proc p)).minfo i).used = true →
      ((s.proc p).minfo i).used = true ∧
        ((change (s.proc p)).minfo i).file = ((s.proc p).minfo i).file) :
    (({ s with ftable := ftable } : Machine).updateProc p change).FileInv := by
  obtain ⟨positive, ref, type, others⟩ := Ftable.fileclose_cases closed
  apply inv.update
  · intro g
    rw [uses]
    by_cases same : g = f
    · subst same
      rw [ref, if_pos rfl]
      ring
    · rw [others g same, if_neg (Ne.symm same)]
      ring
  · exact fun idle => absurd running idle
  · intro i used
    obtain ⟨before, file⟩ := maps i used
    rw [file]
    exact inv.backed p i before
  · intro g open_ inode
    by_cases same : g = f
    · subst same
      rw [type, if_neg (by omega)]
      exact inode
    · rwa [others g same]
  · intro g zero
    by_cases same : g = f
    · subst same
      rw [type, if_pos (by omega)]
    · rw [others g same] at zero ⊢
      exact inv.closed g zero

/-- `sys_dup`. -/
theorem sysDup {done : Bool} (inv : s.FileInv) (active : s.Active p)
    (ran : s.sysDup p fd = .ok (done, s')) : s'.FileInv := by
  unfold Machine.sysDup at ran
  split at ran
  · cases ran
    exact inv
  split at ran
  · cases ran
    exact inv
  next found =>
  obtain ⟨fd, unused, rfl⟩ := fdalloc_cases found
  rw [bind_ok] at ran
  obtain ⟨ftable, dup, ran⟩ := ran
  cases ran
  obtain ⟨_, rfl⟩ := Ftable.filedup_cases dup
  refine inv.open_ active.1 unused ?_ ?_ ?_
  · simp [updateProc]
  · intro inode
    simpa [updateProc] using inode
  · intro g apart
    simp [updateProc, apart]

/-- `sys_close`. -/
theorem sysClose {done : Bool} (inv : s.FileInv) (active : s.Active p)
    (ran : s.sysClose p fd = .ok (done, s')) : s'.FileInv := by
  unfold Machine.sysClose at ran
  split at ran
  · cases ran
    exact inv
  next f isOpen =>
  rw [bind_ok] at ran
  obtain ⟨ftable, closed, ran⟩ := ran
  cases ran
  refine inv.close (fun proc => { proc with ofile := Function.update proc.ofile fd none }) closed
    active.1 ?_ ?_
  · intro g
    rw [Proc.uses_ofile, isOpen]
    simp [sub_eq_add_neg]
  · exact fun i used => ⟨used, rfl⟩

/-- The end of `sys_open`, after any change of the inode cache. -/
theorem openInode {t : Ftable} {ip : Fin NINODE} {type : FileType} {readable writable opened : Bool}
    (inv : s.FileInv) (active : s.Active p) (same : t.file = s.ftable.file)
    (ran : ({ s with ftable := t } : Machine).openInode p ip type readable writable =
      .ok (opened, s')) : s'.FileInv := by
  have inv : ({ s with ftable := t } : Machine).FileInv := inv.of_kept ⟨same, fun _ => rfl⟩
  unfold Machine.openInode at ran
  simp only at ran
  split at ran
  · cases ran
    exact inv.of_kept ⟨rfl, fun _ => rfl⟩
  next f ftable allocated =>
  obtain ⟨fresh, rfl⟩ : (t.file f).ref = 0 ∧ ftable = t.updateFile f fun file => { file with ref := 1 } := by
    unfold Ftable.filealloc at allocated
    split at allocated
    · next found =>
      cases allocated
      exact ⟨by simpa using List.find?_some found, rfl⟩
    · cases allocated
  split at ran
  · -- no entry for it: the file is closed again
    rw [bind_ok] at ran
    obtain ⟨ftable, closed, ran⟩ := ran
    cases ran
    obtain ⟨_, ref, type', others⟩ := Ftable.fileclose_cases closed
    have unchanged : ∀ g, (ftable.file g).ref = (t.file g).ref ∧
        (ftable.file g).type = (t.file g).type := by
      intro g
      by_cases same : g = f
      · subst same
        rw [ref, type', fresh]
        simpa [Ftable.updateFile] using (inv.closed g fresh).symm
      · rw [others g same]
        simp [Ftable.updateFile, same]
    constructor
    · intro g
      exact (unchanged g).1.trans (inv.counted g)
    · exact inv.idle
    · intro q i used
      obtain ⟨g, file, isInode⟩ := inv.backed q i used
      exact ⟨g, file, (unchanged g).2.trans isInode⟩
    · intro g zero
      exact (unchanged g).2.trans (inv.closed g ((unchanged g).1.symm.trans zero))
  · next found =>
    obtain ⟨fd, unused, rfl⟩ := fdalloc_cases found
    cases ran
    refine inv.open_ active.1 unused ?_ ?_ ?_
    · simp [Ftable.updateFile, updateProc, fresh]
    · intro inode
      have closed := inv.closed f fresh
      rw [inode] at closed
      cases closed
    · intro g apart
      simp [Ftable.updateFile, updateProc, apart]

/-- `sys_mmap` counts the mapping. -/
theorem sysMmap {addr : Nat} {length prot flags fd offset : BitVec 32} {va : Option Nat}
    (inv : s.FileInv) (active : s.Active p)
    (ran : s.sysMmap p addr length prot flags fd offset = .ok (va, s')) : s'.FileInv := by
  rcases sysMmap_cases ran with ⟨_, rfl⟩ |
    ⟨f, i, mapped, ftable, _, isInode, entry, dup, _, rfl⟩
  · exact inv
  obtain ⟨unused, _⟩ := mapAlloc_cases entry
  obtain ⟨positive, rfl⟩ := Ftable.filedup_cases dup
  apply inv.update
  · intro g
    rw [Proc.uses_minfo, unused]
    by_cases same : g = f
    · subst same
      simp [Ftable.updateFile, newMap]
    · simp [Ftable.updateFile, newMap, same, Ne.symm same]
  · exact fun idle => absurd active.1 idle
  · intro j used
    by_cases same : j = i
    · subst same
      exact ⟨f, by simp [newMap], isInode⟩
    · simp only [Function.update_of_ne same] at used ⊢
      exact inv.backed p j used
  · intro g open_ inode
    by_cases same : g = f
    · subst same
      simpa [Ftable.updateFile] using inode
    · simpa [Ftable.updateFile, same] using inode
  · intro g zero
    by_cases same : g = f
    · subst same
      simp only [Ftable.updateFile, Function.update_self] at zero
      omega
    · simp only [Ftable.updateFile, Function.update_of_ne same] at zero ⊢
      exact inv.closed g zero

/-- `sys_munmap` closes the file of a mapping that it removes. -/
theorem sysMunmap {addr : Nat} {length : BitVec 32} {done : Bool} (inv : s.FileInv)
    (active : s.Active p) (ran : s.sysMunmap p addr length = .ok (done, s')) : s'.FileInv := by
  rcases sysMunmap_cases ran with ⟨_, rfl⟩ |
    ⟨i, looped, _, _, _, used, loop, ⟨_, _, f, ftable, file, closed, rfl⟩ | ⟨_, rfl⟩⟩
  · exact inv
  · have kept := foldlM_invariant (Kept s) (fun _ _ _ kept ran => kept.trans (munmapPage_kept ran))
      (.refl s) loop
    have inv := inv.of_kept kept
    rw [← kept.minfo] at used file
    refine inv.close (fun proc =>
      { proc with
        minfo := Function.update proc.minfo i { proc.minfo i with used := false } }) closed
      ((kept.state p).trans active.1) ?_ ?_
    · intro g
      rw [Proc.uses_minfo]
      simp [used, file, sub_eq_add_neg]
    · intro j usedJ
      by_cases same : j = i
      · subst same
        simp at usedJ
      · simpa only [Function.update_of_ne same, and_true] using usedJ
  · have kept := foldlM_invariant (Kept s) (fun _ _ _ kept ran => kept.trans (munmapPage_kept ran))
      (.refl s) loop
    have inv := inv.of_kept kept
    refine inv.update (p := p) ?_ ?_ ?_ (fun _ _ inode => inode) inv.closed
    · intro g
      rw [Proc.uses_minfo_eq _ g i (cutMap _ addr _) ⟨rfl, rfl⟩]
      ring
    · exact fun idle => absurd ((kept.state p).trans active.1) idle
    · intro j usedJ
      by_cases same : j = i
      · subst same
        simp only [Function.update_self, cutMap] at usedJ ⊢
        exact inv.backed p j usedJ
      · simp only [Function.update_of_ne same] at usedJ ⊢
        exact inv.backed p j usedJ

end FileInv

section Loops

variable {s s' : Machine} {p np : Fin NPROC}

/-- A table in the middle of a loop over its entries: those to go are as `before`,
the others as `after`. -/
private def midway (before after : Fin NOFILE → Option (Fin NFILE)) (rest : List (Fin NOFILE))
    (fd : Fin NOFILE) : Option (Fin NFILE) :=
  if fd ∈ rest then before fd else after fd

private theorem midway_cons (before after : Fin NOFILE → Option (Fin NFILE)) {fd : Fin NOFILE}
    {rest : List (Fin NOFILE)} (fresh : fd ∉ rest) :
    Function.update (midway before after (fd :: rest)) fd (after fd) = midway before after rest := by
  funext fd'
  by_cases same : fd' = fd
  · subst same
    simp [midway, fresh]
  · simp [midway, same]

private theorem midway_finRange (before after : Fin NOFILE → Option (Fin NFILE)) :
    midway before after (List.finRange NOFILE) = before := by
  funext fd
  simp [midway]

private theorem midway_nil (before after : Fin NOFILE → Option (Fin NFILE)) :
    midway before after [] = after := by
  funext fd
  simp [midway]

/-- The loop of `fork` over the open files gives the child those of the parent and
counts them. -/
theorem forkFiles_spec (apart : p ≠ np) (notOpen : ∀ fd, (s.proc np).ofile fd = none)
    (ran : s.forkFiles p np = .ok s') :
    s'.kmem = s.kmem ∧ s'.ftable.inode = s.ftable.inode ∧
      s'.proc = Function.update s.proc np { s.proc np with ofile := (s.proc p).ofile } ∧
      ∀ f, s'.ftable.file f = { s.ftable.file f with
        ref := (s.ftable.file f).ref + ((s'.proc np).uses f - (s.proc np).uses f) } := by
  have loop := foldlM_rule (fun rest (t : Machine) => rest.Nodup ∧ t.kmem = s.kmem ∧
      t.ftable.inode = s.ftable.inode ∧
      t.proc = Function.update s.proc np { s.proc np with
        ofile := midway (fun _ => none) (s.proc p).ofile rest } ∧
      ∀ f, t.ftable.file f = { s.ftable.file f with
        ref := (s.ftable.file f).ref + ((t.proc np).uses f - (s.proc np).uses f) })
    ?_ ?_ ran
  · obtain ⟨_, kmem, inode, proc, files⟩ := loop
    rw [midway_nil] at proc
    exact ⟨kmem, inode, proc, files⟩
  · rintro fd rest t next ⟨nodup, kmem, inode, proc, files⟩ ran
    obtain ⟨fresh, nodup⟩ := List.nodup_cons.mp nodup
    have parent : t.proc p = s.proc p := by
      rw [proc, Function.update_of_ne apart]
    have child : t.proc np = { s.proc np with
        ofile := midway (fun _ => none) (s.proc p).ofile (fd :: rest) } := by
      rw [proc, Function.update_self]
    have table := midway_cons (fun _ => none) (s.proc p).ofile fresh
    rw [parent] at ran
    cases isOpen : (s.proc p).ofile fd with
    | none =>
        rw [isOpen] at ran table
        cases ran
        rw [Function.update_eq_self_iff.mpr (by simp [midway])] at table
        rw [table] at proc
        exact ⟨nodup, kmem, inode, proc, files⟩
    | some f =>
        rw [isOpen, bind_ok] at ran
        obtain ⟨ftable, dup, ran⟩ := ran
        cases ran
        obtain ⟨_, rfl⟩ := Ftable.filedup_cases dup
        refine ⟨nodup, kmem, inode, ?_, fun g => ?_⟩
        · rw [isOpen] at table
          simp only [updateProc, child, table, proc, Function.update_idem]
        · have uses := Proc.uses_ofile (t.proc np) g fd (some f)
          have unused : (t.proc np).ofile fd = none := by simp [child, midway]
          rw [unused] at uses
          simp only [updateProc, Function.update_self, uses]
          by_cases same : g = f
          · subst same
            simp [Ftable.updateFile, files]
            ring
          · simp [Ftable.updateFile, same, Ne.symm same, files]
  · refine ⟨List.nodup_finRange _, rfl, rfl, ?_, by simp⟩
    have same : { s.proc np with ofile := fun _ => none } = s.proc np := by
      rw [← show (s.proc np).ofile = fun _ => none from funext notOpen]
    rw [midway_finRange, same, Function.update_eq_self]

/-- The loop of `exit` over the open files closes all of them. -/
theorem exitFiles_spec (inv : s.FileInv) (ran : s.exitFiles p = .ok s') :
    s'.kmem = s.kmem ∧
      s'.proc = Function.update s.proc p { s.proc p with ofile := fun _ => none } ∧
      ∀ f, (s'.ftable.file f).ref =
          (s.ftable.file f).ref + ((s'.proc p).uses f - (s.proc p).uses f) ∧
        ((s'.ftable.file f).ref = 0 → (s'.ftable.file f).type = .none) ∧
        ((s'.ftable.file f).ref ≠ 0 → (s'.ftable.file f).type = (s.ftable.file f).type) := by
  have loop := foldlM_rule (fun rest (t : Machine) => rest.Nodup ∧ t.kmem = s.kmem ∧
      t.proc = Function.update s.proc p { s.proc p with
        ofile := midway (s.proc p).ofile (fun _ => none) rest } ∧
      ∀ f, (t.ftable.file f).ref =
          (s.ftable.file f).ref + ((t.proc p).uses f - (s.proc p).uses f) ∧
        ((t.ftable.file f).ref = 0 → (t.ftable.file f).type = .none) ∧
        ((t.ftable.file f).ref ≠ 0 → (t.ftable.file f).type = (s.ftable.file f).type))
    ?_ ?_ ran
  · obtain ⟨_, kmem, proc, files⟩ := loop
    rw [midway_nil] at proc
    exact ⟨kmem, proc, files⟩
  · rintro fd rest t next ⟨nodup, kmem, proc, files⟩ ran
    obtain ⟨fresh, nodup⟩ := List.nodup_cons.mp nodup
    have own : t.proc p = { s.proc p with
        ofile := midway (s.proc p).ofile (fun _ => none) (fd :: rest) } := by
      rw [proc, Function.update_self]
    have table := midway_cons (s.proc p).ofile (fun _ => none) fresh
    have entry : (t.proc p).ofile fd = (s.proc p).ofile fd := by simp [own, midway]
    rw [entry] at ran
    cases isOpen : (s.proc p).ofile fd with
    | none =>
        rw [isOpen] at ran
        cases ran
        rw [Function.update_eq_self_iff.mpr (by simp [midway, isOpen])] at table
        rw [table] at proc
        exact ⟨nodup, kmem, proc, files⟩
    | some f =>
        rw [isOpen, bind_ok] at ran
        obtain ⟨ftable, closed, ran⟩ := ran
        cases ran
        obtain ⟨positive, ref, type, others⟩ := Ftable.fileclose_cases closed
        refine ⟨nodup, kmem, ?_, fun g => ?_⟩
        · simp only [updateProc, own, table, proc, Function.update_idem]
        · have uses := Proc.uses_ofile (t.proc p) g fd none
          rw [entry, isOpen] at uses
          simp only [updateProc, Function.update_self, uses]
          obtain ⟨refG, typeG⟩ := files g
          by_cases same : g = f
          · subst same
            refine ⟨by rw [ref, refG]; simp; ring, fun zero => ?_, fun open_ => ?_⟩
            · rw [type, if_pos (by omega)]
            · rw [type, if_neg (by omega)]
              exact typeG.2 (by omega)
          · rw [others g same]
            exact ⟨by rw [refG]; simp [Ne.symm same], typeG⟩
  · refine ⟨List.nodup_finRange _, rfl, ?_, fun f => ⟨by simp, inv.closed f, fun _ => rfl⟩⟩
    rw [midway_finRange, Function.update_eq_self]

/-- Without mappings the loop of `fork` over the mappings does nothing. -/
theorem forkMaps_none (none : ∀ i, ((s.proc p).minfo i).used = false)
    (ran : s.forkMaps p np = .ok s') : s' = s := by
  refine foldlM_invariant (fun t => t = s) ?_ rfl ran
  rintro i _ next rfl ran
  rw [if_neg (by simp [none])] at ran
  cases ran
  rfl

/-- Without mappings the loop of `exit` over the mappings does nothing. -/
theorem exitMaps_none (none : ∀ i, ((s.proc p).minfo i).used = false)
    (ran : s.exitMaps p = .ok s') : s' = s := by
  refine foldlM_invariant (fun t => t = s) ?_ rfl ran
  rintro i _ next rfl ran
  rw [if_neg (by simp [none])] at ran
  cases ran
  rfl

end Loops

namespace FileInv

variable {s s' : Machine} {p np : Fin NPROC}

/-- `exit` of a process without mappings. -/
theorem exit (inv : s.FileInv) (none : ∀ i, ((s.proc p).minfo i).used = false)
    (ran : s.exit p = .ok s') : s'.FileInv := by
  obtain ⟨-, shut, looped, files, maps, rfl⟩ := exit_cases ran
  obtain ⟨_, procs, files⟩ := exitFiles_spec inv files
  have own : shut.proc p = { s.proc p with ofile := fun _ => Option.none } := by
    rw [procs, Function.update_self]
  rw [exitMaps_none (by rw [own]; exact none) maps]
  have unmapped : ∀ {P : Prop} (i : Fin MMAP_NUM), ((s.proc p).minfo i).used = true → P := by
    intro P i used
    rw [none] at used
    cases used
  have result : (({ s with ftable := shut.ftable.iput (shut.proc p).cwd } :
      Machine).updateProc p fun proc =>
        { proc with ofile := fun _ => Option.none, state := .zombie }).FileInv := by
    apply inv.update
    · intro f
      have ref := (files f).1
      rw [own] at ref
      exact ref
    · exact fun _ => ⟨fun _ => rfl, none⟩
    · exact fun i used => unmapped i used
    · intro f open_ inode
      exact ((files f).2.2 open_).trans inode
    · exact fun f zero => (files f).2.1 zero
  refine result.of_kept ⟨rfl, fun q => ?_⟩
  by_cases same : q = p
  · subst same
    simp [updateProc, own]
  · simp [updateProc, procs, same]

/-- `freeproc` of a process without open files and mappings. -/
theorem freeproc (inv : s.FileInv) (idle : (s.proc p).state ≠ .running)
    (ran : s.freeproc p = .ok s') : s'.FileInv := by
  obtain ⟨m, _, rfl⟩ := freeproc_cases ran
  refine inv.of_same rfl (fun q => ?_) fun q isIdle => ?_
  · by_cases same : q = p
    · subst same
      simp [updateProc]
    · simp [updateProc, same]
  · by_cases same : q = p
    · subst same
      exact idle
    · simpa [updateProc, same] using isIdle

/-- `allocproc` and `uvmcopy` give the child memory, which changes no table. -/
private theorem copied {alloc : Machine} {u : Uvm} (inv : s.FileInv)
    (found : s.allocproc = .ok (some (np, alloc))) :
    (alloc.withUvm np u).FileInv ∧ ((alloc.withUvm np u).proc np).state = .unused ∧
      ∀ q, q ≠ np → (alloc.withUvm np u).proc q = s.proc q := by
  obtain ⟨unused, tf, m, fresh, top, _, _, rfl⟩ := allocproc_cases found
  refine ⟨inv.of_same rfl (fun q => ?_) fun q isIdle => ?_, ?_, fun q apart => ?_⟩
  · by_cases same : q = np
    · subst same
      simp [Machine.withUvm, updateProc]
    · simp [Machine.withUvm, updateProc, same]
  · by_cases same : q = np
    · subst same
      simpa [Machine.withUvm, updateProc] using isIdle
    · simpa [Machine.withUvm, updateProc, same] using isIdle
  · simp [Machine.withUvm, updateProc, unused]
  · simp [Machine.withUvm, updateProc, apart]

/-- `fork` of a process without mappings. -/
theorem fork {child : Option (Fin NPROC)} (inv : s.FileInv)
    (none : ∀ i, ((s.proc p).minfo i).used = false) (active : s.Active p)
    (ran : s.fork p = .ok (child, s')) : s'.FileInv := by
  cases child with
  | none =>
      rcases fork_none_cases ran with ⟨_, rfl⟩ | ⟨np, alloc, u, found, _, freed⟩
      · exact inv
      · obtain ⟨inv, unused, _⟩ := inv.copied (u := u) found
        exact inv.freeproc (by rw [unused]; simp) freed
  | some np =>
      obtain ⟨alloc, u, files, maps, found, _, openFiles, mappings, rfl⟩ := fork_cases ran
      obtain ⟨invCopy, unused, others⟩ := inv.copied (u := u) found
      obtain ⟨copy, isCopy⟩ : ∃ copy, copy = alloc.withUvm np u := ⟨_, rfl⟩
      rw [← isCopy] at invCopy unused others openFiles
      have apart : p ≠ np := by
        rintro rfl
        obtain ⟨isUnused, _⟩ := allocproc_cases found
        rw [active.1] at isUnused
        cases isUnused
      obtain ⟨notOpen, notMapped⟩ := invCopy.idle np (by rw [unused]; simp)
      have parent := others p apart
      have sized : (copy.updateProc np fun proc => { proc with sz := (copy.proc p).sz }).proc np =
          { copy.proc np with sz := (copy.proc p).sz } := Function.update_self ..
      have parentSized : (copy.updateProc np fun proc =>
          { proc with sz := (copy.proc p).sz }).proc p = s.proc p := by
        rw [← parent]
        exact Function.update_of_ne apart ..
      obtain ⟨_, _, procs, refs⟩ := forkFiles_spec apart (by rw [sized]; exact notOpen) openFiles
      have childFiles : files.proc np = { copy.proc np with
          sz := (copy.proc p).sz, ofile := (s.proc p).ofile } := by
        rw [procs, Function.update_self, sized, parentSized]
      have parentFiles : files.proc p = s.proc p := by
        rw [procs, Function.update_of_ne apart, parentSized]
      rw [forkMaps_none (by rw [parentFiles]; exact none) mappings]
      have result : (({ copy with ftable := files.ftable.idup (files.proc p).cwd } :
          Machine).updateProc np fun proc =>
            { proc with
              sz := (copy.proc p).sz, ofile := (s.proc p).ofile, cwd := (files.proc p).cwd
              state := .running }).FileInv := by
        apply invCopy.update
        · intro f
          have ref := congrArg File.ref (refs f)
          rw [childFiles, sized] at ref
          exact ref
        · exact fun idle => absurd rfl idle
        · intro i used
          rw [notMapped] at used
          cases used
        · intro f _ inode
          exact (congrArg File.type (refs f)).trans inode
        · intro f zero
          have type := congrArg File.type (refs f)
          have ref := congrArg File.ref (refs f)
          have before : (copy.ftable.file f).ref = copy.uses f := invCopy.counted f
          have fresh : (copy.proc np).uses f = 0 := Proc.uses_eq_zero _ _ notOpen notMapped
          rw [sized] at ref
          change (files.ftable.file f).ref = (copy.ftable.file f).ref + _ at ref
          change (files.ftable.file f).ref = 0 at zero
          have := copy.uses_nonneg f
          have := (files.proc np).uses_nonneg f
          have sameUses : { copy.proc np with sz := (copy.proc p).sz }.uses f =
              (copy.proc np).uses f := rfl
          exact type.trans (invCopy.closed f (by omega))
      refine result.of_same rfl (fun q => ?_) fun q isIdle => ?_
      · by_cases same : q = np
        · subst same
          simp [updateProc, childFiles]
        · simp [updateProc, procs, same]
      · by_cases same : q = np
        · subst same
          simp [updateProc] at isIdle
        · simpa [updateProc, procs, same] using isIdle

/-- Before any file is open all counts are right. -/
theorem boot (start : s.Boot) : s.FileInv := by
  have uses : ∀ f, s.uses f = 0 := fun f =>
    Finset.sum_eq_zero fun q _ =>
      Proc.uses_eq_zero _ _ (start.notOpen q) fun i => by rw [start.notMapped]
  constructor
  · intro f
    rw [uses, (start.closed f).1]
  · exact fun q _ => ⟨start.notOpen q, fun i => by rw [start.notMapped]⟩
  · intro q i used
    rw [start.notMapped] at used
    cases used
  · exact fun f _ => (start.closed f).2

end FileInv

/-- A process without mappings. -/
def Unmapped (s : Machine) (p : Fin NPROC) : Prop := ∀ i, ((s.proc p).minfo i).used = false

end Machine

/-- A process that has a mapping neither forks nor exits. -/
def ForksUnmapped (s : MmapSys) : MmapAct → Prop
  | .fork p | .exit p => s.machine.Unmapped p
  | _ => True

/-- Every step that meets the condition keeps the counts right. -/
theorem MmapStep.fileInv {s next : MmapSys} {act : MmapAct} (step : MmapStep s act next)
    (allowed : ForksUnmapped s act) (inv : s.machine.FileInv) : next.machine.FileInv := by
  cases step with
  | openFile active _ ran =>
      exact inv.openInode (t := s.machine.ftable.iget _ _ _) active rfl ran
  | dup active ran => exact inv.sysDup active ran
  | close active ran => exact inv.sysClose active ran
  | write => exact inv.of_kept ⟨rfl, fun _ => rfl⟩
  | mmap active _ ran => exact inv.sysMmap active ran
  | mmapFails active ran => exact inv.sysMmap active ran
  | munmap active ran => exact inv.sysMunmap active ran
  | access _ ran => exact inv.of_kept (Machine.access_kept ran)
  | copyOut _ ran =>
      cases ran
      exact inv.of_kept (.withUvm s.machine _ _)
  | sbrk _ ran => exact inv.of_resized (Machine.growproc_resized ran)
  | exec _ ran => exact inv.of_resized (Machine.exec_resized ran)
  | fork active ran => exact inv.fork allowed active ran
  | forkFails active ran => exact inv.fork allowed active ran
  | exit _ ran => exact inv.exit allowed ran
  | reap zombie ran => exact inv.freeproc (by rw [zombie]; simp) ran

/-- While only processes without mappings fork and exit, the count of every file is
the number of its uses, the file behind a mapping is open, and a file without uses
is closed. -/
theorem files_accounted {s : MmapSys} (run : mmapSystem.ReachableUnder ForksUnmapped s) :
    s.machine.FilesAccounted := by
  have inductive_ : mmapSystem.Inductive ForksUnmapped fun s => s.machine.FileInv :=
    ⟨fun start => Machine.FileInv.boot start, fun inv allowed step => step.fileInv allowed inv⟩
  exact (run.invariant inductive_).accounted

/-- A run of the first process: it opens a file and maps a page of it, which makes two
uses. -/
theorem files_accounted_firstMapping : ∃ s, mmapSystem.ReachableUnder ForksUnmapped s ∧
    s.machine.uses 0 = 2 ∧ s.machine.FilesAccounted := by
  have boot : mmapSystem.ReachableUnder ForksUnmapped firstProcess := .initial firstProcess_boot
  have opened := boot.step (by trivial) (@MmapStep.openFile firstProcess 0 0 .inode 8192 (fun _ => 7)
    true true true _ ⟨rfl, rfl⟩ (.inl rfl) rfl)
  have mapped := opened.step (by trivial) (@MmapStep.mmap _ 0 0 4096 PROT_READ MAP_SHARED 0 0 _ _ _ _
    ⟨rfl, rfl⟩ rfl rfl)
  exact ⟨_, mapped, by decide, files_accounted mapped⟩

/-- A child that exits with a mapping leaves the file counted for ever: two references, and
only the descriptor of its parent uses it. -/
theorem files_miscounted_after_exit :
    ¬ ∀ s, mmapSystem.Reachable s → s.machine.FilesAccounted := by
  intro accounted
  obtain ⟨s, run, seen⟩ := reachable_after [(0, .fork), (1, .mmap 4096 1 1 0), (1, .exit)]
    (fun s => ((s.machine.ftable.file 0).ref, s.machine.uses 0)) (2, 1) (by decide)
  obtain ⟨ref, uses⟩ := Prod.mk.inj seen
  have counted := (accounted s run).counted 0
  rw [ref, uses] at counted
  cases counted

end Riscv2os.Xv7
