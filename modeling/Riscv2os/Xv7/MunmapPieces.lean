import Riscv2os.Xv7.MmapWindows
import Riscv2os.Xv7.MunmapPages

/-!
# Unmapping a mapping piece by piece

A division of a mapping is a list of pieces, each a number of pages at the front or the
back of what is left; the call for a piece may end where the bytes of the mapping end, inside
its last page. `sys_munmap` cuts the bounds of the entry, but ends the mapping only when the
length of a call is the one that the mapping was made with.
-/

namespace Riscv2os.Xv7

open Riscv2os.Std

/-- A piece of a mapping. The call that unmaps it leaves out `tail` bytes of its last page. -/
structure Piece where
  back : Bool
  pages : Nat
  tail : Nat

namespace Piece

/-- Where a piece of what is left, `[lo, hi)`, starts. -/
def addr (piece : Piece) (lo hi : Nat) : Nat :=
  if piece.back then hi - piece.pages * PGSIZE else lo

/-- The length of the call that unmaps a piece. -/
def length (piece : Piece) : BitVec 32 := BitVec.ofNat 32 (piece.pages * PGSIZE - piece.tail)

/-- The start of what is left after a piece. -/
def lo (piece : Piece) (lo : Nat) : Nat := if piece.back then lo else lo + piece.pages * PGSIZE

/-- The end of what is left after a piece. -/
def hi (piece : Piece) (hi : Nat) : Nat := if piece.back then hi - piece.pages * PGSIZE else hi

/-- The pieces have at least one page each, and cover `[lo, hi)`. Bytes may be left out behind
`stop`, where the mapping ends. -/
structure Divides (pieces : List Piece) (lo stop hi : Nat) : Prop where
  some : pieces ≠ []
  nonempty : ∀ piece ∈ pieces, 0 < piece.pages
  tails : ∀ piece ∈ pieces, piece.tail = 0 ∨ stop + piece.tail = hi
  cover : lo + (pieces.map pages).sum * PGSIZE = hi

/-- Of two or more pieces none covers everything. -/
theorem Divides.pages_lt {a b piece : Piece} {rest : List Piece} {lo stop hi : Nat}
    (division : Divides (a :: b :: rest) lo stop hi) (listed : piece ∈ a :: b :: rest) :
    lo + (piece.pages + 1) * PGSIZE ≤ hi := by
  have part : ∀ {one : Piece} {pieces : List Piece}, one ∈ pieces →
      one.pages ≤ (pieces.map pages).sum :=
    fun listed => List.le_sum_of_mem (List.mem_map_of_mem listed)
  have positive := division.nonempty
  have cover := division.cover
  have first := positive a (by simp)
  have second := positive b (by simp)
  rw [List.map_cons, List.sum_cons] at cover
  have more : piece.pages + 1 ≤ a.pages + ((b :: rest).map pages).sum := by
    rcases List.mem_cons.mp listed with rfl | later
    · have := part (List.mem_cons_self : b ∈ b :: rest)
      omega
    · have := part later
      omega
  have := Nat.mul_le_mul_right PGSIZE more
  omega

end Piece

namespace Machine

/-- Unmapping the pieces of `[lo, hi)` in order ends the mapping in entry `i`, which was
`[first, last)` at the start. Until the last piece, what is left stays mapped, with its
pages, and the file is not closed. -/
inductive PiecesUnmap (p : Fin NPROC) (i : Fin MMAP_NUM) (f : Fin NFILE) (first last : Nat) :
    Nat → Nat → List Piece → Machine → Prop where
  | last {lo hi piece s s'}
      (ran : s.sysMunmap p (piece.addr lo hi) piece.length = .ok (true, s'))
      (free : ((s'.proc p).minfo i).used = false)
      (unmapped : ∀ vpn, first / PGSIZE ≤ vpn → vpn * PGSIZE < last → (s'.uvm p).leafAt vpn = none)
      (dropped : (s'.ftable.file f).ref = (s.ftable.file f).ref - 1) :
      PiecesUnmap p i f first last lo hi [piece] s
  | more {lo hi piece rest s s'}
      (ran : s.sysMunmap p (piece.addr lo hi) piece.length = .ok (true, s'))
      (live : ((s'.proc p).minfo i).used = true)
      (bounds : ((s'.proc p).minfo i).vstart = piece.lo lo ∧
        ((s'.proc p).minfo i).vend = piece.hi hi)
      (mapped : ∀ vpn, piece.lo lo / PGSIZE ≤ vpn → vpn * PGSIZE < piece.hi hi →
        (s'.uvm p).leafAt vpn = (s.uvm p).leafAt vpn)
      (held : (s'.ftable.file f).ref = (s.ftable.file f).ref)
      (later : PiecesUnmap p i f first last (piece.lo lo) (piece.hi hi) rest s') :
      PiecesUnmap p i f first last lo hi (piece :: rest) s

variable {s s' : Machine} {p : Fin NPROC} {i : Fin MMAP_NUM} {f : Fin NFILE} {first last lo hi : Nat}
  {piece : Piece} {pieces : List Piece}

/-- A call of `munmap` with another length than that of mapping `i` does not end it. -/
theorem sysMunmap_keepsMap {addr : Nat} {length : BitVec 32} {done : Bool}
    (ran : s.sysMunmap p addr length = .ok (done, s')) (used : ((s.proc p).minfo i).used = true)
    (other : ((s.proc p).minfo i).length ≠ length) :
    ((s'.proc p).minfo i).used = true ∧
      ((s'.proc p).minfo i).length = ((s.proc p).minfo i).length := by
  rcases sysMunmap_cases ran with ⟨_, rfl⟩ | ⟨j, looped, _, _, _, _, loop, final⟩
  · exact ⟨used, rfl⟩
  have kept := (munmapLoop_kept loop).minfo p
  rcases final with ⟨_, whole, _, ftable, _, _, rfl⟩ | ⟨_, rfl⟩ <;> rw [updateMap_minfo]
  · by_cases same : i = j
    · subst same
      exact absurd whole other
    · rw [if_neg (by simp [same])]
      dsimp only
      rw [kept]
      exact ⟨used, rfl⟩
  · split
    · next same =>
      obtain ⟨_, rfl⟩ := same
      rw [kept]
      exact ⟨used, rfl⟩
    · rw [kept]
      exact ⟨used, rfl⟩

/-- A mapping does not end when no piece has its length. -/
theorem PiecesUnmap.someLength (unmaps : PiecesUnmap p i f first last lo hi pieces s)
    (used : ((s.proc p).minfo i).used = true) :
    ∃ piece ∈ pieces, piece.length = ((s.proc p).minfo i).length := by
  induction unmaps with
  | @last _ _ piece s s' ran free =>
      refine ⟨piece, List.mem_cons_self, ?_⟩
      by_contra other
      obtain ⟨still, _⟩ := sysMunmap_keepsMap ran used (Ne.symm other)
      rw [free] at still
      cases still
  | @more _ _ piece _ s s' ran live _ _ _ _ ih =>
      by_cases same : piece.length = ((s.proc p).minfo i).length
      · exact ⟨piece, List.mem_cons_self, same⟩
      · obtain ⟨_, length⟩ := sysMunmap_keepsMap ran used (Ne.symm same)
        obtain ⟨found, listed, equal⟩ := ih live
        exact ⟨found, List.mem_cons_of_mem piece listed, equal.trans length⟩

/-- What the whole mapping in entry `i` needs to be unmapped in one call. -/
structure EndsInOne (s : Machine) (p : Fin NPROC) (i : Fin MMAP_NUM) (f : Fin NFILE)
    (pieces : List Piece) : Prop where
  /-- There is one piece, and its length is the one that the mapping was made with. -/
  whole : ∃ piece, pieces = [piece] ∧ piece.length = ((s.proc p).minfo i).length
  /-- The file is open. -/
  opened : 1 ≤ (s.ftable.file f).ref
  /-- If a page has to be written back, the inode is in use. -/
  held : ∀ {vpn pte}, (s.uvm p).leafAt vpn = some pte → vpn * PGSIZE < ((s.proc p).minfo i).vend →
    ((s.proc p).minfo i).vstart / PGSIZE ≤ vpn → ((s.proc p).minfo i).flushes pte = true →
      1 ≤ (s.ftable.inode (s.ftable.file f).ip).ref

end Machine

variable {i : Fin MMAP_NUM} {f : Fin NFILE} {length prot flags : BitVec 32} {pieces : List Piece}

/-- The number of pages of a mapping that has been divided, and its length. -/
theorem newMap_divided (division : Piece.Divides pieces (windowStart i)
      (windowStart i + length.toNat) (Machine.newMap i length prot flags f).vend) :
    length.toNat < 2 ^ 31 ∧ (Machine.newMap i length prot flags f).vend =
      windowStart i + (length.toNat + PGSIZE - 1) / PGSIZE * PGSIZE ∧
        ((pieces.map Piece.pages).sum) = (length.toNat + PGSIZE - 1) / PGSIZE := by
  obtain ⟨piece, rest, rfl⟩ := List.exists_cons_of_ne_nil division.some
  have first := division.nonempty piece List.mem_cons_self
  have cover := division.cover
  rw [List.map_cons, List.sum_cons] at cover ⊢
  have more : windowStart i < (Machine.newMap i length prot flags f).vend := by
    simp only [PGSIZE] at cover
    omega
  have positive := newMap_positive more
  have signed := BitVec.toInt_eq_toNat_cond length
  have vend : (Machine.newMap i length prot flags f).vend = _ := newMap_vend positive
  refine ⟨by split at signed <;> omega, vend, ?_⟩
  rw [vend] at cover
  simp only [PGSIZE] at cover ⊢
  omega

/-- A piece with the length of the mapping is the only one. -/
theorem piece_whole {piece : Piece} (division : Piece.Divides pieces (windowStart i)
      (windowStart i + length.toNat) (Machine.newMap i length prot flags f).vend) (listed : piece ∈ pieces)
    (same : piece.length = length) : pieces = [piece] := by
  obtain ⟨short, vend, sum⟩ := newMap_divided division
  have pages : piece.pages ≤ (pieces.map Piece.pages).sum :=
    List.le_sum_of_mem (List.mem_map_of_mem listed)
  have bytes : length.toNat = piece.pages * PGSIZE - piece.tail := by
    rw [← same, Piece.length, BitVec.toNat_ofNat]
    refine Nat.mod_eq_of_lt ?_
    simp only [PGSIZE] at sum ⊢
    omega
  match pieces, division, listed with
  | [one], _, listed => rw [List.mem_singleton.mp listed]
  | a :: b :: rest, division, listed =>
      have less := division.pages_lt listed
      rw [vend] at less
      simp only [PGSIZE] at bytes less
      omega

/-- The pages of a mapping are those in which it has bytes. -/
theorem newMap_page (division : Piece.Divides pieces (windowStart i)
      (windowStart i + length.toNat) (Machine.newMap i length prot flags f).vend) {vpn : Nat} :
    vpn * PGSIZE < windowStart i + length.toNat ↔
      vpn * PGSIZE < (Machine.newMap i length prot flags f).vend := by
  rw [(newMap_divided division).2.1]
  simp only [windowStart, MMAP_VSTART, MMAP_SIZE, PGSIZE]
  omega

/-- A file that is closed was open, and has one use less. -/
theorem Ftable.fileclose_ref {t t' : Ftable} (closed : t.fileclose f = .ok t') :
    1 ≤ (t.file f).ref ∧ (t'.file f).ref = (t.file f).ref - 1 := by
  unfold fileclose at closed
  dsimp only at closed
  split at closed
  · cases closed
  next positive =>
  split at closed
  · cases closed
    refine ⟨by omega, ?_⟩
    simp [updateFile]
  · next last =>
    refine ⟨by omega, ?_⟩
    have ref : (t'.file f).ref = 0 := by
      split at closed <;> cases closed <;> simp [updateFile, iput, updateInode]
    omega

theorem Ftable.fileclose_returns {t : Ftable} (opened : 1 ≤ (t.file f).ref) :
    ∃ t', t.fileclose f = .ok t' := by
  unfold fileclose
  dsimp only
  rw [if_neg (by omega)]
  split
  · exact ⟨_, rfl⟩
  · split <;> exact ⟨_, rfl⟩

/-- The end of the range of a call for the whole mapping. -/
theorem munmapStop_whole (short : length.toNat < 2 ^ 31) :
    Machine.munmapStop (windowStart i) length = windowStart i + length.toNat := by
  obtain ⟨_, _, value⟩ := munmapStop_bounds length (Nat.le_add_right MMAP_VSTART _) (windowStart_lt i).le
  rw [value, if_pos short]

namespace Machine

variable {s : Machine} {p : Fin NPROC} {piece : Piece}

/-- If the pieces end the mapping, there is one piece. -/
theorem PiecesUnmap.endsInOne {first last lo hi : Nat} (inv : s.FrameInv)
    (isUsed : (s.proc p).state ≠ .unused)
    (entry : (s.proc p).minfo i = newMap i length prot flags f)
    (division : Piece.Divides pieces (windowStart i) (windowStart i + length.toNat)
      (newMap i length prot flags f).vend)
    (unmaps : PiecesUnmap p i f first last lo hi pieces s) : s.EndsInOne p i f pieces := by
  have used : ((s.proc p).minfo i).used = true := by rw [entry]; rfl
  obtain ⟨piece, listed, same⟩ := unmaps.someLength used
  have same : piece.length = length := by
    rw [entry] at same
    exact same
  have short := (newMap_divided division).1
  obtain rfl := piece_whole division listed same
  cases unmaps with
  | more _ _ _ _ _ later => cases later
  | @last _ _ _ _ s' ran free _ _ =>
  rcases sysMunmap_cases ran with ⟨impossible, _⟩ | ⟨j, looped, _, low, sel, _, loop, final⟩
  · cases impossible
  have kept := (munmapLoop_kept loop).minfo p
  rcases final with ⟨start, _, f', ftable, file, closed, rfl⟩ | ⟨_, rfl⟩
  swap
  · rw [updateMap_minfo, kept] at free
    split at free
    · next same =>
      obtain ⟨_, rfl⟩ := same
      simp only [cutMap] at free
      cases used.symm.trans free
    · cases used.symm.trans free
  have own : i = j := by
    by_contra other
    rw [updateMap_minfo, if_neg (by simp [other])] at free
    dsimp only at free
    rw [kept] at free
    cases used.symm.trans free
  subst own
  rw [entry] at file start
  cases file
  have atStart : piece.addr lo hi = windowStart i := start.symm
  rw [atStart] at loop
  obtain ⟨_, aligned⟩ := FrameInv.pgRoundDown_window (Nat.le_add_right MMAP_VSTART (i * MMAP_SIZE))
  have files : looped.ftable.file = s.ftable.file := (munmapLoop_kept loop).file
  refine ⟨⟨piece, rfl, by rw [entry]; exact same⟩, ?_, ?_⟩
  · rw [← files]
    exact (Ftable.fileclose_ref closed).1
  · intro vpn pte found below above flushes
    have inside : vpn ∈ (pagesBetween (pgRoundDown (windowStart i))
        (munmapStop (windowStart i) piece.length)).map (· / PGSIZE) := by
      rw [pages_pagesBetween aligned, Uvm.pgRoundDown_div, same, munmapStop_whole short]
      rw [entry] at below above
      exact ⟨above, (newMap_page division).mpr below⟩
    obtain ⟨va, listed, rfl⟩ := List.mem_map.mp inside
    refine munmapLoop_held (inv.owns isUsed) (by rw [entry]; rfl) (fun va listed => ?_)
      (nodup_pagesBetween _ _) loop listed found flushes
    exact (Uvm.mem_pagesBetween listed).2.2.trans aligned

/-- One call for the whole mapping ends it. -/
theorem EndsInOne.piecesUnmap (inv : s.FrameInv) (isUsed : (s.proc p).state ≠ .unused)
    (entry : (s.proc p).minfo i = newMap i length prot flags f)
    (division : Piece.Divides pieces (windowStart i) (windowStart i + length.toNat)
      (newMap i length prot flags f).vend)
    (one : s.EndsInOne p i f pieces) :
    PiecesUnmap p i f (windowStart i) (newMap i length prot flags f).vend (windowStart i)
      (newMap i length prot flags f).vend pieces s := by
  obtain ⟨⟨piece, rfl, same⟩, opened, held⟩ := one
  rw [entry] at same held
  have short := (newMap_divided division).1
  have same : piece.length = length := same
  have start : piece.addr (windowStart i) (newMap i length prot flags f).vend = windowStart i := by
    have cover := division.cover
    rw [List.map_singleton, List.sum_singleton] at cover
    unfold Piece.addr
    split
    · rw [← cover, Nat.add_sub_cancel]
    · rfl
  have file : ((s.proc p).minfo i).file = some f := by rw [entry]; rfl
  have low : MMAP_VSTART ≤ windowStart i := Nat.le_add_right ..
  obtain ⟨_, aligned⟩ := FrameInv.pgRoundDown_window low
  have page : ∀ {vpn}, vpn ∈ (pagesBetween (pgRoundDown (windowStart i))
      (munmapStop (windowStart i) length)).map (· / PGSIZE) ↔
        windowStart i / PGSIZE ≤ vpn ∧ vpn * PGSIZE < (newMap i length prot flags f).vend := by
    intro vpn
    rw [pages_pagesBetween aligned, Uvm.pgRoundDown_div, munmapStop_whole short]
    exact and_congr_right fun _ => newMap_page division
  obtain ⟨looped, loop⟩ : ∃ looped, (pagesBetween (pgRoundDown (windowStart i))
      (munmapStop (windowStart i) length)).foldlM (munmapPage p ((s.proc p).minfo i)
        (pgRoundDown (windowStart i))) s = .ok looped := by
    refine munmapLoop_returns (inv.owns isUsed) file (fun va listed => ⟨?_, ?_, ?_⟩) (nodup_pagesBetween _ _)
    · have top := (munmapStop_bounds length low (windowStart_lt i).le).2.1
      have below := (Uvm.mem_pagesBetween listed).2.1
      simp only [TRAPFRAME] at top
      omega
    · exact (Uvm.mem_pagesBetween listed).2.2.trans aligned
    · intro pte found
      obtain ⟨above, below⟩ := page.mp (List.mem_map_of_mem listed)
      refine ⟨?_, fun flushes => held found below above (by rwa [entry] at flushes)⟩
      have small := (inv.pages p isUsed).sz_le (inv.owns isUsed)
      rcases (inv.pages p isUsed).mapped found with heap | ⟨_, _, user, _⟩
      · simp only [windowStart, MMAP_VSTART, PGSIZE] at heap above
        omega
      · simp [Pte.bare, user]
  have cleared := munmapLoop_cleared (inv.owns isUsed) file
    (fun va listed => (Uvm.mem_pagesBetween listed).2.2.trans aligned) (nodup_pagesBetween _ _) loop
  have files : looped.ftable.file = s.ftable.file := (munmapLoop_kept loop).file
  obtain ⟨ftable, closed⟩ := Ftable.fileclose_returns (t := looped.ftable) (f := f) (by rwa [files])
  have ran := sysMunmap_whole low (windowStart_lt i).le
    (by rw [pgRoundDown_windowStart]; exact mapSel_windowStart i) (by rw [entry]; rfl)
    (by rw [entry]; rfl) (by rw [entry]; rfl) file loop closed
  have call : s.sysMunmap p (piece.addr (windowStart i) (newMap i length prot flags f).vend)
      piece.length = s.sysMunmap p (windowStart i) length := by
    rw [start, same]
  refine .last (call.trans ran) ?_ ?_ ?_
  · rw [updateMap_minfo, if_pos ⟨rfl, rfl⟩]
  · intro vpn above below
    have gone := cleared.leaves vpn
    rw [if_pos (page.mpr ⟨above, below⟩)] at gone
    simpa [uvm, updateMap, updateProc] using gone
  · have dropped := (Ftable.fileclose_ref closed).2
    rw [files] at dropped
    exact dropped

end Machine

/-- Unmapping a mapping piece by piece works when there is one piece only, of the length
that the mapping was made with. -/
theorem piecesUnmap_iff {s : MmapSys} (run : mmapSystem.Reachable s) {p : Fin NPROC}
    (active : s.machine.Active p)
    (entry : (s.machine.proc p).minfo i = Machine.newMap i length prot flags f)
    (division : Piece.Divides pieces ((s.machine.proc p).minfo i).vstart
      (((s.machine.proc p).minfo i).vstart + ((s.machine.proc p).minfo i).length.toNat)
      ((s.machine.proc p).minfo i).vend) :
    Machine.PiecesUnmap p i f ((s.machine.proc p).minfo i).vstart ((s.machine.proc p).minfo i).vend
        ((s.machine.proc p).minfo i).vstart ((s.machine.proc p).minfo i).vend pieces s.machine ↔
      s.machine.EndsInOne p i f pieces := by
  have inv := frameInv_of_reachable run
  have isUsed : (s.machine.proc p).state ≠ .unused := by
    rw [active.1]
    exact fun impossible => by cases impossible
  rw [entry] at division ⊢
  exact ⟨fun unmaps => unmaps.endsInOne inv isUsed entry division,
    fun one => one.piecesUnmap inv isUsed entry division⟩

/-- A mapping of one page and a half in one call. -/
theorem piecesUnmap_bothPages : ∃ s, mmapSystem.Reachable s ∧
    Machine.PiecesUnmap 0 0 0 ((s.machine.proc 0).minfo 0).vstart ((s.machine.proc 0).minfo 0).vend
      ((s.machine.proc 0).minfo 0).vstart ((s.machine.proc 0).minfo 0).vend [⟨false, 2, 2048⟩] s.machine := by
  have mapped : mmapSystem.Reachable (firstMapping 6144 PROT_READ MAP_SHARED) :=
    firstMapping_reachable trivial trivial
  have entry : ((firstMapping 6144 PROT_READ MAP_SHARED).machine.proc 0).minfo 0 =
      Machine.newMap 0 6144 PROT_READ MAP_SHARED 0 := rfl
  refine ⟨_, mapped, (piecesUnmap_iff mapped ⟨rfl, rfl⟩ entry ⟨by simp, by simp, by simp; decide, rfl⟩).mpr ?_⟩
  exact ⟨⟨_, rfl, by decide⟩, by decide, fun found => by cases found⟩

/-- The two pages of a mapping, unmapped one after the other: the mapping does not end. -/
theorem piecesUnmap_neverEnds :
    ¬ ∀ s, mmapSystem.Reachable s → ∀ p i f length prot flags pieces, s.machine.Active p →
      (s.machine.proc p).minfo i = Machine.newMap i length prot flags f →
      Piece.Divides pieces ((s.machine.proc p).minfo i).vstart
          (((s.machine.proc p).minfo i).vstart + ((s.machine.proc p).minfo i).length.toNat)
          ((s.machine.proc p).minfo i).vend →
        Machine.PiecesUnmap p i f ((s.machine.proc p).minfo i).vstart
          ((s.machine.proc p).minfo i).vend ((s.machine.proc p).minfo i).vstart
          ((s.machine.proc p).minfo i).vend pieces s.machine := by
  intro ends
  have mapped : mmapSystem.Reachable (firstMapping 8192 PROT_READ MAP_SHARED) :=
    firstMapping_reachable trivial trivial
  have unmaps := ends _ mapped 0 0 0 8192 PROT_READ MAP_SHARED [⟨false, 1, 0⟩, ⟨false, 1, 0⟩]
    ⟨rfl, rfl⟩ rfl ⟨by simp, by simp, by simp, rfl⟩
  obtain ⟨piece, listed, same⟩ := unmaps.someLength rfl
  have short : piece.length = 4096 := by
    simp only [List.mem_cons, List.not_mem_nil, or_false, or_self] at listed
    rw [listed]
    rfl
  rw [short] at same
  revert same
  decide

end Riscv2os.Xv7
