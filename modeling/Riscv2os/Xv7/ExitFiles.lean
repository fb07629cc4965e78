import Riscv2os.Xv7.Teardown

/-!
# What `exit` leaves in the files

`exit` writes nothing to files, and `munmap` writes dirty pages of shared mappings. The two
leave the same content exactly if the files have those pages already.
-/

namespace Riscv2os.Xv7

open Riscv2os.Std

namespace Ftable

variable {t t' t'' : Ftable} {f : Fin NFILE}

/-- Every file has the content it had. -/
structure SameContent (t t' : Ftable) : Prop where
  ip : ∀ f, (t'.file f).ip = (t.file f).ip
  inode : ∀ ip, (t'.inode ip).size = (t.inode ip).size ∧ (t'.inode ip).data = (t.inode ip).data

namespace SameContent

theorem refl (t : Ftable) : SameContent t t := ⟨fun _ => rfl, fun _ => ⟨rfl, rfl⟩⟩

theorem trans (first : SameContent t t') (second : SameContent t' t'') : SameContent t t'' where
  ip f := (second.ip f).trans (first.ip f)
  inode ip := ⟨(second.inode ip).1.trans (first.inode ip).1, (second.inode ip).2.trans (first.inode ip).2⟩

theorem updateInode {ip : Fin NINODE} {change : Inode → Inode}
    (same : (change (t.inode ip)).size = (t.inode ip).size ∧
      (change (t.inode ip)).data = (t.inode ip).data) : SameContent t (t.updateInode ip change) where
  ip _ := rfl
  inode other := by
    by_cases own : other = ip
    · subst own
      simpa [Ftable.updateInode] using same
    · simp [Ftable.updateInode, own]

theorem iput (t : Ftable) (ip : Fin NINODE) : SameContent t (t.iput ip) := updateInode ⟨rfl, rfl⟩

theorem fileclose (closed : t.fileclose f = .ok t') : SameContent t t' := by
  have file : ∀ change : File → File, (change (t.file f)).ip = (t.file f).ip →
      SameContent t (t.updateFile f change) := by
    intro change same
    refine ⟨fun g => ?_, fun _ => ⟨rfl, rfl⟩⟩
    by_cases own : g = f
    · subst own
      simpa [updateFile] using same
    · simp [updateFile, own]
  unfold Ftable.fileclose at closed
  dsimp only at closed
  split at closed
  · cases closed
  split at closed
  · cases closed
    exact file _ rfl
  · have first := file (fun file => { file with ref := 0, type := .none }) rfl
    split at closed <;> cases closed
    · exact first.trans (iput _ _)
    · exact first.trans (iput _ _)
    all_goals exact first

end SameContent

end Ftable

namespace Inode

/-- The file has the first `n` bytes of a page at an offset. -/
def Has (ip : Inode) (off n : Nat) (page : Page) : Prop :=
  ∀ k < n, off + k < ip.size ∧ ip.data (off + k) = page.byte k

/-- Writing what is there changes nothing. -/
theorem written_of_has {ip : Inode} {off n : Nat} {page : Page} (has : ip.Has off n page) :
    (ip.written page off n).size = ip.size ∧ (ip.written page off n).data = ip.data := by
  unfold written writei
  split
  · exact ⟨rfl, rfl⟩
  split
  · exact ⟨rfl, rfl⟩
  constructor
  · refine if_neg fun ⟨positive, beyond⟩ => ?_
    have last := (has (n - 1) (by omega)).1
    omega
  · funext k
    dsimp only
    split
    · next inside =>
      have byte := (has (k - off) (by omega)).2
      rw [show off + (k - off) = k by omega] at byte
      exact byte.symm
    · rfl

end Inode

/-- The file has a page of the mapping where `munmap` would write it. -/
def MapInfo.Holds (map : MapInfo) (base va : Nat) (page : Page) (ip : Inode) : Prop :=
  ip.Has (sub64 va base % 2 ^ 32)
    (min PGSIZE (sub64 (uint64 map.length) (sub64 va base)) % 2 ^ 32) page

theorem MapInfo.Holds.congr {map : MapInfo} {base va : Nat} {page : Page} {ip ip' : Inode}
    (holds : map.Holds base va page ip) (same : ip'.size = ip.size ∧ ip'.data = ip.data) :
    map.Holds base va page ip' := by
  intro k below
  rw [same.1, same.2]
  exact holds k below

namespace Machine

variable {s s' t t' : Machine} {p : Fin NPROC} {i : Fin MMAP_NUM} {map : MapInfo} {base : Nat}
  {rounds : List Nat} {length : BitVec 32}

/-- The files have all pages that `munmap` of the whole ranges would write. -/
def Saved (s : Machine) (p : Fin NPROC) (content : Fin NINODE → Inode) : Prop :=
  ∀ {i j f va pte}, ((s.proc p).minfo i).used = true →
    mapSel (pgRoundDown ((s.proc p).minfo i).vstart) = .ok j → ((s.proc p).minfo j).used = true →
    ((s.proc p).minfo j).file = some f →
    va ∈ pagesBetween (pgRoundDown ((s.proc p).minfo i).vstart) ((s.proc p).minfo i).vend →
    (s.uvm p).leafAt (va / PGSIZE) = some pte → ((s.proc p).minfo j).flushes pte = true →
    ((s.proc p).minfo j).Holds (pgRoundDown ((s.proc p).minfo i).vstart) va (s.kmem.mem pte.pa)
      (content (s.ftable.file f).ip)

/-- `munmap` from the start of a mapping with this length goes over its whole range. -/
def Covers (map : MapInfo) (length : BitVec 32) : Prop :=
  pagesBetween (pgRoundDown map.vstart) (munmapStop map.vstart length) =
    pagesBetween (pgRoundDown map.vstart) map.vend

/-- Calls of `munmap`, one for each of some mappings. -/
def munmapEach (s : Machine) (p : Fin NPROC) (calls : List (Fin MMAP_NUM × BitVec 32)) :
    Except Fault Machine :=
  calls.foldlM (fun t call => do
    let (_, t) ← t.sysMunmap p ((s.proc p).minfo call.1).vstart call.2
    return t) s

/-- The loop of `munmap` writes nothing that the file does not have. -/
theorem flush_same {ip : Inode}
    (holds : ∀ va ∈ rounds, ∀ pte, (s.uvm p).leafAt (va / PGSIZE) = some pte → map.flushes pte = true →
      map.Holds base va (s.kmem.mem pte.pa) ip) :
    (s.flush p map base rounds ip).size = ip.size ∧ (s.flush p map base rounds ip).data = ip.data := by
  unfold flush
  induction rounds generalizing ip with
  | nil => exact ⟨rfl, rfl⟩
  | cons va rounds ih =>
      have first : (s.flushAt p map base va ip).size = ip.size ∧
          (s.flushAt p map base va ip).data = ip.data := by
        unfold Machine.flushAt
        split
        · next pte found =>
          split
          · next flushes => exact Inode.written_of_has (holds va List.mem_cons_self pte found flushes)
          · exact ⟨rfl, rfl⟩
        · exact ⟨rfl, rfl⟩
      rw [List.foldl_cons]
      obtain ⟨size, data⟩ := ih fun va' later pte found flushes =>
        (holds va' (List.mem_cons_of_mem va later) pte found flushes).congr first
      exact ⟨size.trans first.1, data.trans first.2⟩

/-- After some calls of `munmap` the process has some of its mappings and pages, and the
files have their content. -/
structure Flushed (s t : Machine) (p : Fin NPROC) : Prop where
  inv : t.FrameInv
  alive : (t.proc p).state ≠ .unused
  entries : ∀ j, ((t.proc p).minfo j).used = true → ((s.proc p).minfo j).used = true ∧
    ((t.proc p).minfo j).flags = ((s.proc p).minfo j).flags ∧
    ((t.proc p).minfo j).length = ((s.proc p).minfo j).length ∧
    ((t.proc p).minfo j).file = ((s.proc p).minfo j).file
  leaves : ∀ vpn pte, (t.uvm p).leafAt vpn = some pte →
    (s.uvm p).leafAt vpn = some pte ∧ t.kmem.mem pte.pa = s.kmem.mem pte.pa
  files : s.ftable.SameContent t.ftable

theorem Flushed.munmap {done : Bool} (flushed : s.Flushed t p) (saved : s.Saved p s.ftable.inode)
    (backed : ∀ i, ((s.proc p).minfo i).used = true → ∃ f, ((s.proc p).minfo i).file = some f)
    (used : ((s.proc p).minfo i).used = true) (covers : Covers ((s.proc p).minfo i) length)
    (ran : t.sysMunmap p ((s.proc p).minfo i).vstart length = .ok (done, t')) : s.Flushed t' p := by
  have inv := flushed.inv.sysMunmap flushed.alive ran
  cases done with
  | false =>
      rcases sysMunmap_cases ran with ⟨_, rfl⟩ | ⟨_, _, impossible, _⟩
      · exact flushed
      · cases impossible
  | true =>
      have backedT : ∀ j, ((t.proc p).minfo j).used = true → ∃ f, ((t.proc p).minfo j).file = some f := by
        intro j usedJ
        obtain ⟨usedS, _, _, file⟩ := flushed.entries j usedJ
        rw [file]
        exact backed j usedS
      obtain ⟨j, f, looped, _, sel, usedJ, file, cleared, final⟩ :=
        sysMunmap_cleared flushed.inv flushed.alive backedT ran
      obtain ⟨usedS, flags, len, fileS⟩ := flushed.entries j usedJ
      rw [covers] at cleared
      have written : t.ftable.SameContent looped.ftable := by
        rw [cleared.files]
        refine .updateInode (flush_same fun va listed pte found flushes => ?_)
        obtain ⟨before, mem⟩ := flushed.leaves _ pte found
        rw [MapInfo.flushes, flags] at flushes
        have holds := saved used sel usedS (fileS ▸ file) listed before flushes
        rw [mem, flushed.files.ip]
        refine MapInfo.Holds.congr ?_ (flushed.files.inode _)
        unfold MapInfo.Holds
        rw [len]
        exact holds
      have looped' : s.ftable.SameContent looped.ftable := flushed.files.trans written
      have leaves : ∀ vpn pte, (looped.uvm p).leafAt vpn = some pte →
          (s.uvm p).leafAt vpn = some pte ∧ looped.kmem.mem pte.pa = s.kmem.mem pte.pa := by
        intro vpn pte found
        have mem : looped.kmem.mem pte.pa = t.kmem.mem pte.pa :=
          cleared.shrinks.mem (.inl (Uvm.frame_of_leaf found))
        rw [cleared.leaves] at found
        split at found
        · cases found
        · obtain ⟨before, same⟩ := flushed.leaves vpn pte found
          exact ⟨before, mem.trans same⟩
      have minfo : (looped.proc p).minfo = (t.proc p).minfo := by rw [cleared.own]
      have state : (looped.proc p).state = (t.proc p).state := by rw [cleared.own]
      -- the entry is changed last, and the file perhaps closed before
      have last : ∀ {ftable change},
          t' = ({ looped with ftable := ftable } : Machine).updateMap p j change →
          looped.ftable.SameContent ftable →
          (∀ map : MapInfo, (change map).used = true → map.used = true) →
          (∀ map : MapInfo, (change map).flags = map.flags ∧ (change map).length = map.length ∧
            (change map).file = map.file) → s.Flushed t' p := by
        rintro ftable change rfl closed fewer same
        refine ⟨inv, ?_, fun k usedK => ?_, fun vpn pte found => ?_, looped'.trans closed⟩
        · simpa [Machine.updateMap, updateProc, state] using flushed.alive
        · rw [updateMap_minfo] at usedK ⊢
          dsimp only at usedK ⊢
          rw [minfo] at usedK ⊢
          split at usedK
          · next entry =>
            rw [if_pos entry, (same _).1, (same _).2.1, (same _).2.2, entry.2]
            exact flushed.entries j (fewer _ usedK)
          · next entry =>
            rw [if_neg entry]
            exact flushed.entries k usedK
        · have uvms : (({ looped with ftable := ftable } : Machine).updateMap p j change).uvm p =
              looped.uvm p := by
            simp [uvm, Machine.updateMap, updateProc]
          rw [uvms] at found
          exact leaves vpn pte found
      rcases final with ⟨_, _, ftable, closed, same⟩ | ⟨_, same⟩
      · exact last same (.fileclose closed) (fun _ impossible => by cases impossible)
          fun _ => ⟨rfl, rfl, rfl⟩
      · exact last same (.refl _) (fun _ used => used) fun _ => ⟨rfl, rfl, rfl⟩

/-- Calls of `munmap` that have nothing to write leave the files as they are. -/
theorem munmapEach_files {calls : List (Fin MMAP_NUM × BitVec 32)} (inv : s.FrameInv)
    (alive : (s.proc p).state ≠ .unused) (saved : s.Saved p s.ftable.inode)
    (backed : ∀ i, ((s.proc p).minfo i).used = true → ∃ f, ((s.proc p).minfo i).file = some f)
    (live : ∀ call ∈ calls, ((s.proc p).minfo call.1).used = true ∧
      Covers ((s.proc p).minfo call.1) call.2)
    (ran : s.munmapEach p calls = .ok t) : s.ftable.SameContent t.ftable := by
  have start : s.Flushed s p :=
    ⟨inv, alive, fun _ used => ⟨used, rfl, rfl, rfl⟩, fun _ _ found => ⟨found, rfl⟩, .refl _⟩
  refine (foldlM_rule (fun rest t => (∀ call ∈ rest, ((s.proc p).minfo call.1).used = true ∧
    Covers ((s.proc p).minfo call.1) call.2) ∧ s.Flushed t p) ?_ ⟨live, start⟩ ran).2.files
  rintro call rest t next ⟨ready, flushed⟩ round
  obtain ⟨⟨done, t'⟩, unmapped, round⟩ := bind_ok.mp round
  cases round
  obtain ⟨used, covers⟩ := ready call List.mem_cons_self
  exact ⟨fun other later => ready other (List.mem_cons_of_mem call later),
    flushed.munmap saved backed used covers unmapped⟩

/-- `exit` leaves the files as they are. -/
theorem exit_files (ran : s.exit p = .ok s') : s.ftable.SameContent s'.ftable := by
  obtain ⟨_, shut, looped, files, maps, rfl⟩ := exit_cases ran
  have closes : s.ftable.SameContent shut.ftable := by
    refine foldlM_invariant (fun t => s.ftable.SameContent t.ftable) (fun fd t next same round => ?_)
      (.refl _) files
    split at round
    · cases round
      exact same
    · obtain ⟨ftable, closed, round⟩ := bind_ok.mp round
      cases round
      exact same.trans (.fileclose closed)
  have unmaps : looped.ftable = shut.ftable := by
    refine foldlM_invariant (fun t => t.ftable = shut.ftable) (fun i t next same round => ?_) rfl maps
    split at round
    · obtain ⟨u, _, round⟩ := bind_ok.mp round
      cases round
      exact same
    · cases round
      exact same
  refine closes.trans ?_
  rw [← unmaps]
  exact .iput _ _

end Machine

/-- `exit` leaves the same files as calls of `munmap` for all live mappings before it, in any
order, and every dirty page of a shared mapping is then in its file. -/
def ExitAgrees (s : Machine) (p : Fin NPROC) (after : Machine) : Prop :=
  (∀ calls : List (Fin MMAP_NUM × BitVec 32), (calls.map Prod.fst).Nodup →
      (∀ i, i ∈ calls.map Prod.fst ↔ ((s.proc p).minfo i).used = true) →
      (∀ call ∈ calls, Machine.Covers ((s.proc p).minfo call.1) call.2) →
      ∀ unmapped after', s.munmapEach p calls = .ok unmapped → unmapped.exit p = .ok after' →
        after.ftable.SameContent after'.ftable) ∧
    s.Saved p after.ftable.inode

/-- `exit` and `munmap` agree exactly if the files have the dirty pages of shared mappings
already. -/
theorem exit_agrees_iff {s : MmapSys} {p : Fin NPROC} {after : Machine}
    (run : mmapSystem.Reachable s) (running : (s.machine.proc p).state = .running)
    (exits : s.machine.exit p = .ok after) :
    ExitAgrees s.machine p after ↔ s.machine.Saved p s.machine.ftable.inode := by
  have same := Machine.exit_files exits
  have used : (s.machine.proc p).state ≠ .unused := by
    rw [running]
    simp
  constructor
  · rintro ⟨_, saved⟩ i j f va pte live sel live' file listed found flushes
    obtain ⟨size, data⟩ := same.inode (s.machine.ftable.file f).ip
    exact (saved live sel live' file listed found flushes).congr ⟨size.symm, data.symm⟩
  · intro saved
    constructor
    · intro calls _ each covers unmapped after' unmaps exits'
      have flushed := Machine.munmapEach_files (frameInv_of_reachable run) used saved
        (map_file_of_run run p) (fun call listed =>
          ⟨(each call.1).mp (List.mem_map_of_mem listed), covers call listed⟩) unmaps
      have both := flushed.trans (Machine.exit_files exits')
      refine ⟨fun f => (both.ip f).trans (same.ip f).symm, fun ip => ?_⟩
      exact ⟨(both.inode ip).1.trans (same.inode ip).1.symm,
        (both.inode ip).2.trans (same.inode ip).2.symm⟩
    · intro i j f va pte live sel live' file listed found flushes
      exact (saved live sel live' file listed found flushes).congr (same.inode _)

/-- A child that has only read its shared mapping. -/
theorem exit_agrees_loaded : ∃ s after, mmapSystem.Reachable s ∧
    ((s.machine.uvm 1).leafAt (MMAP_VSTART / PGSIZE)).isSome ∧ s.machine.exit 1 = .ok after ∧
    ExitAgrees s.machine 1 after := by
  obtain ⟨s, run, seen⟩ := reachable_after
    [(0, .fork), (1, .mmap 4096 3 1 0), (1, .access MMAP_VSTART none)]
    (fun s => ((s.machine.proc 1).state, (s.machine.exit 1).toOption.isSome,
      (s.machine.proc 1).pagetable.leaves.entries.map fun leaf => (leaf.1, leaf.2.d)))
    (.running, true, [(MMAP_VSTART / PGSIZE, false)]) rfl
  simp only [Prod.mk.injEq] at seen
  obtain ⟨running, returns, pages⟩ := seen
  obtain ⟨⟨vpn, pte⟩, only, page⟩ := List.map_eq_singleton_iff.mp pages
  obtain ⟨rfl, notDirty⟩ := Prod.mk.inj page
  have clean : pte.d = false := notDirty
  have exits := ok_getD returns s.machine
  refine ⟨s, _, run, ?_, exits, (exit_agrees_iff run running exits).mpr ?_⟩
  · refine Option.isSome_iff_exists.mpr ⟨pte, AList.mem_lookup_iff.mpr ?_⟩
    change _ ∈ (s.machine.proc 1).pagetable.leaves.entries
    rw [only]
    exact List.mem_cons_self
  · intro i j f va pte' _ _ _ _ _ found flushes
    have listed : _ ∈ (s.machine.proc 1).pagetable.leaves.entries := AList.mem_lookup_iff.mp found
    rw [only, List.mem_singleton] at listed
    have same : pte' = pte := eq_of_heq (Sigma.mk.inj listed).2
    simp [MapInfo.flushes, same, clean] at flushes

/-- A store to a shared mapping is in the file after `munmap`, and lost after `exit`. -/
theorem exit_losesStore : ∃ s after unmapped after', mmapSystem.Reachable s ∧
    ((s.machine.proc 1).live.map fun map => (map.vstart, map.vend)) =
      [(MMAP_VSTART, MMAP_VSTART + 4096)] ∧
    s.machine.exit 1 = .ok after ∧ s.machine.munmapEach 1 [(0, 4096)] = .ok unmapped ∧
    unmapped.exit 1 = .ok after' ∧
    (after.ftable.inode 0).data 0 = 7 ∧ (after'.ftable.inode 0).data 0 = 9 := by
  obtain ⟨s, run, seen⟩ := reachable_after
    [(0, .fork), (1, .mmap 4096 3 1 0), (1, .access MMAP_VSTART none),
      (1, .access MMAP_VSTART (some 9))]
    (fun s => ((s.machine.proc 1).live.map fun map => (map.vstart, map.vend),
      (s.machine.exit 1).map fun after => (after.ftable.inode 0).data 0,
      (s.machine.munmapEach 1 [(0, 4096)]).map fun unmapped =>
        (unmapped.exit 1).map fun after => (after.ftable.inode 0).data 0))
    ([(MMAP_VSTART, MMAP_VSTART + 4096)], .ok 7, .ok (.ok 9)) (by decide +kernel)
  simp only [Prod.mk.injEq] at seen
  obtain ⟨live, kept, written⟩ := seen
  obtain ⟨after, exits, byte⟩ := map_ok.mp kept
  obtain ⟨unmapped, unmaps, written⟩ := map_ok.mp written
  obtain ⟨after', exits', byte'⟩ := map_ok.mp written
  exact ⟨s, after, unmapped, after', run, live, exits, unmaps, exits', byte, byte'⟩

end Riscv2os.Xv7
