import Riscv2os.Xv7.MmapMaps

/-!
# What `munmap` does to the pages of its range

The loop of `sys_munmap` clears the entries of its pages, releases their frames and writes
dirty pages of shared mappings to the file. `flush` is the content of the file afterwards,
from the state before the loop: an unmapped page does not change the pages after it.
-/

namespace Riscv2os.Xv7

open Riscv2os.Std

namespace Ftable

theorem updateInode_updateInode (t : Ftable) (ip : Fin NINODE) (first second : Inode → Inode) :
    (t.updateInode ip first).updateInode ip second = t.updateInode ip (second ∘ first) := by
  simp [updateInode]

theorem updateInode_id (t : Ftable) (ip : Fin NINODE) : t.updateInode ip id = t := by
  simp [updateInode]

end Ftable

namespace Inode

/-- The file after `writei`. -/
def written (ip : Inode) (src : Page) (off n : Nat) : Inode := (ip.writei src off n).1

theorem writei_fst (ip : Inode) (src : Page) (off n : Nat) :
    (ip.writei src off n).1 = ip.written src off n := by
  rw [written]

/-- Writing to a file does not count as a use of its inode. -/
theorem written_ref (ip : Inode) (src : Page) (off n : Nat) :
    (ip.written src off n).ref = ip.ref := by
  unfold written writei
  split
  · rfl
  split <;> rfl

end Inode

/-- Whether `sys_munmap` writes a page back. -/
def MapInfo.flushes (map : MapInfo) (pte : Pte) : Bool := hasFlag map.flags MAP_SHARED && pte.d

/-- The content of the file after the write-back of one page. -/
def MapInfo.flushPage (map : MapInfo) (base va : Nat) (page : Page) (ip : Inode) : Inode :=
  ip.written page (sub64 va base % 2 ^ 32)
    (min PGSIZE (sub64 (uint64 map.length) (sub64 va base)) % 2 ^ 32)

theorem MapInfo.flushPage_ref (map : MapInfo) (base va : Nat) (page : Page) (ip : Inode) :
    (map.flushPage base va page ip).ref = ip.ref := by
  rw [flushPage, Inode.written_ref]

/-- The pages of a loop from the start of a page on. -/
theorem pages_pagesBetween {start stop vpn : Nat} (aligned : start % PGSIZE = 0) :
    vpn ∈ (pagesBetween start stop).map (· / PGSIZE) ↔
      start / PGSIZE ≤ vpn ∧ vpn * PGSIZE < stop := by
  simp only [pagesBetween, List.map_map, List.mem_map, List.mem_range, Function.comp_apply]
  simp only [PGSIZE] at aligned ⊢
  constructor
  · rintro ⟨i, small, rfl⟩
    omega
  · rintro ⟨low, high⟩
    exact ⟨vpn - start / 4096, by omega, by omega⟩

theorem nodup_pagesBetween (start stop : Nat) :
    ((pagesBetween start stop).map (· / PGSIZE)).Nodup := by
  rw [pagesBetween, List.map_map]
  refine List.Nodup.map (fun i j same => ?_) List.nodup_range
  simp only [Function.comp_apply, PGSIZE] at same
  omega

/-- A mapped page can be unmapped. -/
theorem Uvm.dropPage_returns {u : Uvm} {va : Nat} {pte : Pte} (low : va < MAXVA)
    (aligned : va % PGSIZE = 0) (found : u.leafAt (va / PGSIZE) = some pte)
    (leaf : pte.bare = false) : ∃ u', u.dropPage va pte.pa = .ok u' := by
  have down : pgRoundDown va = va := by
    unfold pgRoundDown
    simp only [PGSIZE] at aligned ⊢
    omega
  have count : (va + PGSIZE + 2 ^ 64 - 1) % 2 ^ 64 / PGSIZE - va / PGSIZE + 1 = 1 := by
    simp only [PGSIZE, MAXVA] at aligned low ⊢
    omega
  have walk : u.pagetable.walk va = .ok (some pte) := by
    rw [PageTable.walk, if_neg (by omega)]
    exact congrArg Except.ok found
  have page : u.unmapPage va false = .ok ⟨u.kmem, u.pagetable.clearLeaf va⟩ := by
    rw [unmapPage, walk]
    simp only [bind, Except.bind, leaf]
    rfl
  rw [dropPage, uvmunmap, count, down, unmapPages, page]
  exact ⟨_, rfl⟩

namespace Machine

variable {s s' : Machine} {p : Fin NPROC} {map : MapInfo} {f : Fin NFILE} {base va : Nat}
  {rounds : List Nat} {rest : Set Frame}

/-- The content of the file after the write-back of what is at one address. -/
def flushAt (s : Machine) (p : Fin NPROC) (map : MapInfo) (base va : Nat) (ip : Inode) : Inode :=
  match (s.uvm p).leafAt (va / PGSIZE) with
  | some pte => if map.flushes pte then map.flushPage base va (s.kmem.mem pte.pa) ip else ip
  | none => ip

/-- The content of the file after the write-back of the pages of `rounds`. -/
def flush (s : Machine) (p : Fin NPROC) (map : MapInfo) (base : Nat) (rounds : List Nat)
    (ip : Inode) : Inode :=
  rounds.foldl (fun ip va => s.flushAt p map base va ip) ip

theorem flushAt_ref (s : Machine) (p : Fin NPROC) (map : MapInfo) (base va : Nat) (ip : Inode) :
    (s.flushAt p map base va ip).ref = ip.ref := by
  unfold flushAt
  split
  · split
    · exact map.flushPage_ref base va _ ip
    · rfl
  · rfl

/-- The loop of `sys_munmap` has gone through `rounds`. -/
structure Cleared (s s' : Machine) (p : Fin NPROC) (map : MapInfo) (f : Fin NFILE) (base : Nat)
    (rounds : List Nat) (rest : Set Frame) : Prop where
  others : ∀ q, q ≠ p → s'.proc q = s.proc q
  own : s'.proc p = { s.proc p with pagetable := (s'.proc p).pagetable }
  shrinks : (s.uvm p).Shrinks (s'.uvm p) rest
  leaves : ∀ vpn, (s'.uvm p).leafAt vpn =
    if vpn ∈ rounds.map (· / PGSIZE) then none else (s.uvm p).leafAt vpn
  files : s'.ftable = s.ftable.updateInode (s.ftable.file f).ip (s.flush p map base rounds)

theorem Cleared.refl (owns : (s.uvm p).Owns rest) : s.Cleared s p map f base [] rest where
  others _ _ := rfl
  own := rfl
  shrinks := .refl owns
  leaves _ := rfl
  files := (s.ftable.updateInode_id _).symm

/-- A page that is still mapped has the entry and the content from before. -/
theorem Cleared.flushAt (cleared : s.Cleared s' p map f base rounds rest)
    (apart : va / PGSIZE ∉ rounds.map (· / PGSIZE)) : s'.flushAt p map base va = s.flushAt p map base va := by
  funext ip
  have entry := cleared.leaves (va / PGSIZE)
  rw [if_neg apart] at entry
  unfold Machine.flushAt
  rw [entry]
  split
  · next pte found =>
    have same := cleared.shrinks.mem (.inl (Uvm.frame_of_leaf (entry.trans found)))
    change s'.kmem.mem pte.pa = s.kmem.mem pte.pa at same
    rw [same]
  · rfl

theorem Cleared.cons (first : s.Cleared s' p map f base [va] rest) {s'' : Machine}
    (later : s'.Cleared s'' p map f base rounds rest)
    (apart : va / PGSIZE ∉ rounds.map (· / PGSIZE)) :
    s.Cleared s'' p map f base (va :: rounds) rest where
  others q other := (later.others q other).trans (first.others q other)
  own := by
    rw [later.own, first.own]
  shrinks := first.shrinks.trans later.shrinks
  leaves vpn := by
    rw [later.leaves, first.leaves]
    simp only [List.map_cons, List.map_nil, List.mem_cons, List.not_mem_nil, or_false]
    split_ifs <;> first | rfl | tauto
  files := by
    have same : ∀ {rounds : List Nat}, va / PGSIZE ∉ rounds.map (· / PGSIZE) →
        s'.flush p map base rounds = s.flush p map base rounds := by
      intro rounds apart
      funext ip
      unfold flush
      refine List.foldl_ext _ _ ip fun ip va' listed => ?_
      rw [first.flushAt]
      simp only [List.map_cons, List.map_nil, List.mem_singleton]
      intro page
      exact apart (page ▸ List.mem_map_of_mem listed)
    have file : (s'.ftable.file f).ip = (s.ftable.file f).ip := by
      rw [first.files]
      rfl
    rw [later.files, same apart, file, first.files, Ftable.updateInode_updateInode]
    rfl

/-- What `writeBack` leaves. -/
theorem writeBack_eq {pte : Pte} (file : map.file = some f)
    (ran : s.writeBack map base va pte = .ok s') :
    s' = { s with ftable := s.ftable.updateInode (s.ftable.file f).ip fun ip =>
      if map.flushes pte then map.flushPage base va (s.kmem.mem pte.pa) ip else ip } := by
  unfold writeBack at ran
  split at ran
  · next dirty =>
    rw [MapInfo.deref_eq_ok.mpr file, bind_ok] at ran
    obtain ⟨_, opened, ran⟩ := ran
    cases opened
    rw [bind_ok] at ran
    obtain ⟨_, _, ran⟩ := ran
    have same := Except.ok.inj ran
    rw [← same]
    have flushed : map.flushes pte = true := dirty
    simp only [Inode.writei_fst, flushed, if_true, MapInfo.flushPage]
  · next clean =>
    cases ran
    have flushed : map.flushes pte = false := by simpa [MapInfo.flushes] using clean
    simp only [flushed, Bool.false_eq_true, if_false]
    change s = { s with ftable := s.ftable.updateInode _ id }
    rw [Ftable.updateInode_id]

/-- One round. -/
theorem munmapPage_cleared (owns : (s.uvm p).Owns rest) (file : map.file = some f)
    (aligned : va % PGSIZE = 0) (ran : munmapPage p map base s va = .ok s') :
    s.Cleared s' p map f base [va] rest := by
  rcases munmapPage_cases ran with ⟨found, same⟩ | ⟨pte, written, u, found, wrote, dropped, rfl⟩
  · rw [same]
    have found : (s.uvm p).leafAt (va / PGSIZE) = none := found
    refine ⟨fun _ _ => rfl, rfl, .refl owns, fun vpn => ?_, ?_⟩
    · simp only [List.map_cons, List.map_nil, List.mem_singleton]
      split
      · next same => rw [same, found]
      · rfl
    · have idle : s.flush p map base [va] = id := by
        funext ip
        simp [flush, Machine.flushAt, found]
      rw [idle, Ftable.updateInode_id]
  · obtain rfl := writeBack_eq file wrote
    have found : (s.uvm p).leafAt (va / PGSIZE) = some pte := found
    obtain ⟨shrinks, leaves⟩ := Uvm.dropPage_shrinks owns found dropped
    refine ⟨fun q other => ?_, ?_, ?_, fun vpn => ?_, ?_⟩
    · simp [withUvm, updateProc, other]
    · simp [withUvm, updateProc]
    · rw [withUvm_uvm]
      exact shrinks
    · rw [withUvm_uvm, leaves]
      simp [aligned]
    · have flushed : s.flush p map base [va] = fun ip =>
          if map.flushes pte then map.flushPage base va (s.kmem.mem pte.pa) ip else ip := by
        funext ip
        simp [flush, Machine.flushAt, found]
      rw [flushed]
      rfl

/-- The loop. -/
theorem munmapLoop_cleared (owns : (s.uvm p).Owns rest) (file : map.file = some f)
    (aligned : ∀ va ∈ rounds, va % PGSIZE = 0) (nodup : (rounds.map (· / PGSIZE)).Nodup)
    (ran : rounds.foldlM (munmapPage p map base) s = .ok s') :
    s.Cleared s' p map f base rounds rest := by
  induction rounds generalizing s with
  | nil =>
      cases ran
      exact .refl owns
  | cons va rounds ih =>
      rw [List.foldlM_cons, bind_ok] at ran
      obtain ⟨next, first, ran⟩ := ran
      obtain ⟨apart, nodup⟩ := List.nodup_cons.mp nodup
      have one := munmapPage_cleared owns file (aligned va List.mem_cons_self) first
      exact one.cons (ih one.shrinks.owns (fun va' later => aligned va' (List.mem_cons_of_mem va later))
        nodup ran) apart

/-- What a round of the loop needs in order to return. -/
structure Clearable (s : Machine) (p : Fin NPROC) (map : MapInfo) (f : Fin NFILE) (va : Nat) :
    Prop where
  low : va < MAXVA
  aligned : va % PGSIZE = 0
  leaf : ∀ {pte}, (s.uvm p).leafAt (va / PGSIZE) = some pte → pte.bare = false ∧
    (map.flushes pte = true → 1 ≤ (s.ftable.inode (s.ftable.file f).ip).ref)

/-- A round does not take away what the later ones need. -/
theorem Clearable.cleared {va' : Nat} (ready : s.Clearable p map f va')
    (first : s.Cleared s' p map f base [va] rest) : s'.Clearable p map f va' where
  low := ready.low
  aligned := ready.aligned
  leaf {pte} found := by
    rw [first.leaves] at found
    split at found
    · cases found
    obtain ⟨bare, held⟩ := ready.leaf found
    refine ⟨bare, fun flushes => ?_⟩
    have held := held flushes
    rw [first.files]
    simpa [Ftable.updateInode, flush, flushAt_ref] using held

/-- `writeBack` returns. -/
theorem writeBack_returns {pte : Pte} (file : map.file = some f)
    (held : map.flushes pte = true → 1 ≤ (s.ftable.inode (s.ftable.file f).ip).ref) :
    ∃ s', s.writeBack map base va pte = .ok s' := by
  unfold writeBack
  split
  · next dirty =>
    have lock : s.ftable.ilock (s.ftable.file f).ip = .ok () := by
      have held := held dirty
      rw [Ftable.ilock, if_neg (by omega)]
    rw [MapInfo.deref_eq_ok.mpr file]
    simp only [bind, Except.bind, lock]
    exact ⟨_, rfl⟩
  · exact ⟨s, rfl⟩

/-- The round returns. -/
theorem munmapPage_returns (file : map.file = some f) (ready : s.Clearable p map f va) :
    ∃ s', munmapPage p map base s va = .ok s' := by
  have walk : (s.proc p).pagetable.walk va = .ok ((s.uvm p).leafAt (va / PGSIZE)) := by
    rw [PageTable.walk, if_neg (by have := ready.low; omega)]
    rfl
  cases found : (s.uvm p).leafAt (va / PGSIZE) with
  | none => exact ⟨s, bind_ok.mpr ⟨none, walk.trans (congrArg Except.ok found), rfl⟩⟩
  | some pte =>
      obtain ⟨bare, held⟩ := ready.leaf found
      obtain ⟨written, wrote⟩ := writeBack_returns file held
      obtain ⟨u, dropped⟩ : ∃ u, (written.uvm p).dropPage va pte.pa = .ok u := by
        obtain rfl := writeBack_eq file wrote
        exact Uvm.dropPage_returns ready.low ready.aligned found bare
      exact ⟨written.withUvm p u, bind_ok.mpr ⟨some pte, walk.trans (congrArg Except.ok found),
        bind_ok.mpr ⟨written, wrote, bind_ok.mpr ⟨u, dropped, rfl⟩⟩⟩⟩

/-- The loop returns. -/
theorem munmapLoop_returns (owns : (s.uvm p).Owns rest) (file : map.file = some f)
    (ready : ∀ va ∈ rounds, s.Clearable p map f va) (nodup : (rounds.map (· / PGSIZE)).Nodup) :
    ∃ s', rounds.foldlM (munmapPage p map base) s = .ok s' := by
  induction rounds generalizing s with
  | nil => exact ⟨s, rfl⟩
  | cons va rounds ih =>
      obtain ⟨apart, nodup⟩ := List.nodup_cons.mp nodup
      have first := ready va List.mem_cons_self
      obtain ⟨next, ran⟩ : ∃ next, munmapPage p map base s va = .ok next :=
        munmapPage_returns file first
      have one := munmapPage_cleared owns file first.aligned ran
      obtain ⟨s', later⟩ := ih one.shrinks.owns
        (fun va' later => (ready va' (List.mem_cons_of_mem va later)).cleared one) nodup
      rw [List.foldlM_cons]
      exact ⟨s', bind_ok.mpr ⟨next, ran, later⟩⟩

/-- A call of `munmap` that is not rejected clears the pages of its range, and then closes
or cuts the mapping. -/
theorem sysMunmap_cleared {addr : Nat} {length : BitVec 32} (inv : s.FrameInv)
    (active : (s.proc p).state ≠ .unused)
    (backed : ∀ i, ((s.proc p).minfo i).used = true → ∃ f, ((s.proc p).minfo i).file = some f)
    (ran : s.sysMunmap p addr length = .ok (true, s')) :
    ∃ i f looped, MMAP_VSTART ≤ addr ∧ mapSel (pgRoundDown addr) = .ok i ∧
      ((s.proc p).minfo i).used = true ∧ ((s.proc p).minfo i).file = some f ∧
      s.Cleared looped p ((s.proc p).minfo i) f (pgRoundDown addr)
        (pagesBetween (pgRoundDown addr) (munmapStop addr length)) (s.restFrames p) ∧
      ((((s.proc p).minfo i).vstart = addr ∧ ((s.proc p).minfo i).length = length ∧
          ∃ ftable, looped.ftable.fileclose f = .ok ftable ∧
            s' = ({ looped with ftable := ftable } : Machine).updateMap p i fun map =>
              { map with used := false }) ∨
        (¬ (((s.proc p).minfo i).vstart = addr ∧ ((s.proc p).minfo i).length = length) ∧
          s' = looped.updateMap p i fun map => cutMap map addr (munmapStop addr length))) := by
  rcases sysMunmap_cases ran with ⟨impossible, _⟩ | ⟨i, looped, _, low, sel, used, loop, final⟩
  · cases impossible
  obtain ⟨f, file⟩ := backed i used
  obtain ⟨_, aligned⟩ := FrameInv.pgRoundDown_window low
  refine ⟨i, f, looped, low, sel, used, file, ?_, ?_⟩
  · refine munmapLoop_cleared (inv.owns active) file (fun va listed => ?_) (nodup_pagesBetween _ _) loop
    exact (Uvm.mem_pagesBetween listed).2.2.trans aligned
  · refine final.imp_left ?_
    rintro ⟨start, length, f', ftable, file', closed, same⟩
    rw [file] at file'
    cases file'
    exact ⟨start, length, ftable, closed, same⟩

theorem writeBack_held {pte : Pte} (file : map.file = some f) (flushes : map.flushes pte = true)
    (ran : s.writeBack map base va pte = .ok s') : 1 ≤ (s.ftable.inode (s.ftable.file f).ip).ref := by
  unfold MapInfo.flushes at flushes
  rw [writeBack, if_pos flushes] at ran
  obtain ⟨_, opened, ran⟩ := bind_ok.mp ran
  rw [MapInfo.deref_eq_ok.mpr file] at opened
  cases opened
  obtain ⟨_, locked, _⟩ := bind_ok.mp ran
  by_contra lost
  rw [Ftable.ilock, if_pos (by omega)] at locked
  cases locked

/-- The loop has found the inode in use where it wrote to the file. -/
theorem munmapLoop_held {pte : Pte} (owns : (s.uvm p).Owns rest) (file : map.file = some f)
    (aligned : ∀ va ∈ rounds, va % PGSIZE = 0) (nodup : (rounds.map (· / PGSIZE)).Nodup)
    (ran : rounds.foldlM (munmapPage p map base) s = .ok s') (listed : va ∈ rounds)
    (found : (s.uvm p).leafAt (va / PGSIZE) = some pte) (flushes : map.flushes pte = true) :
    1 ≤ (s.ftable.inode (s.ftable.file f).ip).ref := by
  induction rounds generalizing s with
  | nil => cases listed
  | cons first rounds ih =>
      rw [List.foldlM_cons, bind_ok] at ran
      obtain ⟨next, round, ran⟩ := ran
      obtain ⟨apart, nodup⟩ := List.nodup_cons.mp nodup
      have one := munmapPage_cleared owns file (aligned first List.mem_cons_self) round
      rcases List.mem_cons.mp listed with rfl | later
      · rcases munmapPage_cases round with ⟨vacant, _⟩ | ⟨pte', written, _, found', wrote, _⟩
        · cases found.symm.trans vacant
        · cases found.symm.trans found'
          exact writeBack_held file flushes wrote
      · have page : va / PGSIZE ≠ first / PGSIZE := by
          intro same
          exact apart (List.mem_map.mpr ⟨va, later, same⟩)
        have held := ih one.shrinks.owns (fun va' later => aligned va' (List.mem_cons_of_mem first later))
          nodup ran later (by rw [one.leaves, if_neg (by simpa using page), found])
        rw [one.files] at held
        simpa [Ftable.updateInode, flush, flushAt_ref] using held

/-- Unmapping a whole mapping closes the file. -/
theorem sysMunmap_whole {addr : Nat} {length : BitVec 32} {i : Fin MMAP_NUM} {ftable : Ftable}
    (low : MMAP_VSTART ≤ addr) (high : addr ≤ MMAP_VEND) (sel : mapSel (pgRoundDown addr) = .ok i)
    (used : ((s.proc p).minfo i).used = true) (start : ((s.proc p).minfo i).vstart = addr)
    (whole : ((s.proc p).minfo i).length = length) (file : ((s.proc p).minfo i).file = some f)
    (loop : (pagesBetween (pgRoundDown addr) (munmapStop addr length)).foldlM
      (munmapPage p ((s.proc p).minfo i) (pgRoundDown addr)) s = .ok s')
    (closed : s'.ftable.fileclose f = .ok ftable) :
    s.sysMunmap p addr length = .ok (true, ({ s' with ftable := ftable } : Machine).updateMap p i
      fun map => { map with used := false }) := by
  rw [sysMunmap, if_neg (by omega)]
  refine bind_ok.mpr ⟨i, sel, ?_⟩
  simp only [used, Bool.not_true, Bool.false_eq_true, if_false]
  refine bind_ok.mpr ⟨s', loop, ?_⟩
  rw [if_pos ⟨start, whole⟩]
  exact bind_ok.mpr ⟨f, MapInfo.deref_eq_ok.mpr file, bind_ok.mpr ⟨ftable, closed, rfl⟩⟩

end Machine

end Riscv2os.Xv7
