import Riscv2os.Xv7.FileTransfer
import Riscv2os.Xv7.PageCount
import Riscv2os.Xv7.ProcPagetable

/-!
# The page table that `exec` builds

What the loop over the program headers and the stack make of an empty table, as a function of the headers
and of the number of free frames. There is no panic on the way; what fails leaves a size or 0.
-/

namespace Riscv2os.Xv7

open Riscv2os.Std

/-- The fields of `struct proghdr` that `exec` reads. -/
structure Proghdr where
  type : Nat
  off : Nat
  vaddr : Nat
  filesz : Nat
  memsz : Nat

theorem field_lt (page : Page) (off n : Nat) : field page off n < 256 ^ n := by
  induction n generalizing off with
  | zero => exact Nat.zero_lt_one
  | succ n ih =>
      have first := (page.byte off).toNat_lt
      have rest := ih (off + 1)
      rw [field, pow_succ]
      omega

namespace Proghdr

/-- The program header at an offset of a file that has all its bytes. -/
def read (ip : Inode) (off : Nat) : Option Proghdr :=
  let (ph, got) := ip.readi (fun _ => 0) off 56
  if got ≠ 56 then none
  else some ⟨field ph 0 4, field ph 8 8, field ph 16 8, field ph 32 8, field ph 40 8⟩

/-- `exec` refuses the header as it is. -/
def Refused (ph : Proghdr) : Prop := ph.memsz < ph.filesz ∨ (ph.vaddr + ph.memsz) % 2 ^ 64 < ph.vaddr

/-- The end of the segment. -/
def stop (ph : Proghdr) : Nat := (ph.vaddr + ph.memsz) % 2 ^ 64

/-- The file has all bytes of page `k` of the segment. -/
def HasPage (ph : Proghdr) (ip : Inode) (k : Nat) : Prop :=
  (ip.readi (fun _ => 0) ((ph.off % 2 ^ 32 + k * PGSIZE) % 2 ^ 32)
    (min PGSIZE (ph.filesz % 2 ^ 32 - k * PGSIZE))).2 = min PGSIZE (ph.filesz % 2 ^ 32 - k * PGSIZE)

/-- The segment starts at a page and is in the file. -/
def Loads (ph : Proghdr) (ip : Inode) : Prop :=
  ph.vaddr % PGSIZE = 0 ∧ ∀ k < (ph.filesz % 2 ^ 32 + PGSIZE - 1) / PGSIZE, ph.HasPage ip k

instance (ph : Proghdr) : Decidable ph.Refused := inferInstanceAs (Decidable (_ ∨ _))

/-- The loop over `count` program headers from offset `off` on does not end while the size is 0: the first
header that cannot be read or is refused stands behind a segment with pages, and until then there are `frames`
frames for the segments. If the loop gets through, the condition is about the size. -/
def Recoverable (ip : Inode) (frames : Nat) (last : Nat → Prop) : Nat → Nat → Nat → Prop
  | 0, _, sz => last sz
  | count + 1, off, sz =>
      match read ip off with
      | none => 0 < sz
      | some ph =>
          if ph.type ≠ ELF_PROG_LOAD then Recoverable ip frames last count ((off + 56) % 2 ^ 32) sz
          else if ph.Refused then 0 < sz
          else 0 < max sz ph.stop ∧ Uvm.frameCount (Uvm.pageCount (max sz ph.stop)) ≤ frames ∧
            (ph.Loads ip → Recoverable ip frames last count ((off + 56) % 2 ^ 32) (max sz ph.stop))

variable {ip : Inode} {frames count off : Nat} {last : Nat → Prop} {ph : Proghdr}

/-- A segment that is not refused ends behind its bytes in the file. -/
theorem filesz_le_stop (found : read ip off = some ph) (accepted : ¬ ph.Refused) :
    ph.vaddr + ph.filesz % 2 ^ 32 ≤ ph.stop := by
  have small : ph.memsz < 2 ^ 64 := by
    unfold read at found
    dsimp only at found
    split at found
    · cases found
    · cases found
      exact field_lt _ 40 8
  obtain ⟨longer, wraps⟩ := not_or.mp accepted
  have bytes := Nat.mod_le ph.filesz (2 ^ 32)
  unfold stop
  omega

theorem recoverable_none (absent : read ip off = none) (sz : Nat) :
    Recoverable ip frames last (count + 1) off sz ↔ 0 < sz := by
  rw [Recoverable, absent]

theorem recoverable_some (found : read ip off = some ph) (sz : Nat) :
    Recoverable ip frames last (count + 1) off sz ↔
      if ph.type ≠ ELF_PROG_LOAD then Recoverable ip frames last count ((off + 56) % 2 ^ 32) sz
      else if ph.Refused then 0 < sz
      else 0 < max sz ph.stop ∧ Uvm.frameCount (Uvm.pageCount (max sz ph.stop)) ≤ frames ∧
        (ph.Loads ip → Recoverable ip frames last count ((off + 56) % 2 ^ 32) (max sz ph.stop)) := by
  rw [Recoverable, found]

end Proghdr

namespace Uvm

variable {u u' u'' : Uvm} {rest : Set Frame} {ip : Inode} {sz newsz frames : Nat}

/-- A step of building: the table keeps its pages, and what it takes was free. -/
structure Extends (u u' : Uvm) (rest : Set Frame) : Prop where
  owns : u'.Owns rest
  root : u'.pagetable.root = u.pagetable.root
  tables : ∀ {key f}, u.pagetable.tables.lookup key = some f → u'.pagetable.tables.lookup key = some f
  mem : Set.EqOn u'.kmem.mem u.kmem.mem rest
  pool : u'.pool = u.pool

theorem Extends.refl (owns : u.Owns rest) : u.Extends u rest := ⟨owns, rfl, id, fun _ _ => rfl, rfl⟩

theorem Extends.trans (first : u.Extends u' rest) (second : u'.Extends u'' rest) : u.Extends u'' rest where
  owns := second.owns
  root := second.root.trans first.root
  tables had := second.tables (first.tables had)
  mem := second.mem.trans first.mem
  pool := second.pool.trans first.pool

/-- An address that the table leads to. -/
theorem Extends.reaches {va : Nat} (extends_ : u.Extends u' rest) (reach : u.pagetable.reaches va = true) :
    u'.pagetable.reaches va = true := by
  obtain ⟨upper, lower⟩ := Bool.and_eq_true_iff.mp reach
  obtain ⟨f, found⟩ := Option.isSome_iff_exists.mp upper
  obtain ⟨f', found'⟩ := Option.isSome_iff_exists.mp lower
  rw [PageTable.reaches, extends_.tables found, extends_.tables found']
  rfl

theorem Grew.extends {low high : Nat} (grew : u.Grew rest low high u') : u.Extends u' rest where
  owns := grew.owns
  root := grew.root
  tables := grew.tables
  mem := grew.mem.mono Set.subset_union_right
  pool := grew.pool

/-- Stores into pages of the table. -/
theorem Writes.extends (writes : u.Writes u' rest) (free : u'.kmem.freelist = u.kmem.freelist) :
    u.Extends u' rest where
  owns := writes.owns
  root := by rw [writes.table]
  tables had := by rwa [writes.table]
  mem := writes.mem
  pool := by rw [pool, pool, free, writes.table]

/-- The user pages of a table are those of a size. -/
structure Sized (u : Uvm) (rest : Set Frame) (sz : Nat) : Prop where
  owns : u.Owns rest
  exact : u.ExactPages sz
  pages : UserPages sz u.pagetable

/-- A table while segments are loaded. It shares `frames` frames with the free ones, without its root and the
pages that lead to the trampoline. -/
structure Image (u : Uvm) (rest : Set Frame) (sz frames : Nat) : Prop extends u.Sized rest sz where
  user : ∀ {vpn pte}, u.leafAt vpn = some pte → pte.u = true
  laid : u.Laid (pageCount sz) frames

theorem Sized.writes (sized : u.Sized rest sz) (writes : u.Writes u' rest) : u'.Sized rest sz where
  owns := writes.owns
  exact vpn := by
    rw [leafAt, writes.table]
    exact sized.exact vpn
  pages := by
    rw [writes.table]
    exact sized.pages

/-- `proc_freepagetable` frees a table whose pages are those of the size. -/
theorem Sized.freeUser (sized : u.Sized rest sz) (positive : 0 < sz) :
    ∃ m, u.freeUser sz = .ok m ∧ {f | f ∈ m.freelist} = u.pool := by
  have above : u.NothingAbove sz := fun vpn pte found high => by
    have below := (sized.exact vpn).mp (Option.isSome_iff_exists.mpr ⟨pte, found⟩)
    omega
  obtain ⟨m, ran, -⟩ := (freeUser_iff sized.owns sized.pages).mpr ⟨positive, above⟩
  refine ⟨m, ran, ?_⟩
  rw [Uvm.freeUser, if_pos positive] at ran
  obtain ⟨cleared, unmapped, walked⟩ := bind_ok.mp ran
  exact (freewalk_pool walked).trans (unmapPages_pool unmapped)

/-- `uvmalloc` gives the larger size if there are frames for it, and 0 otherwise. -/
theorem Image.uvmalloc (image : u.Image rest sz frames) (few : frames ≤ 2 ^ 15) (newsz : Nat) :
    ∃ sz' u', u.uvmalloc sz newsz = .ok (sz', u') ∧ u.Extends u' rest ∧
      (sz' = max sz newsz ∧ u'.Image rest (max sz newsz) frames ∨
        sz' = 0 ∧ frames < frameCount (pageCount (max sz newsz))) := by
  by_cases less : newsz < sz
  · refine ⟨sz, u, if_pos less, .refl image.owns, .inl ⟨?_, ?_⟩⟩
    · omega
    · rwa [max_eq_left less.le]
  have more : sz ≤ newsz := not_lt.mp less
  rw [max_eq_right more]
  obtain ⟨grown, u', ran, -, grew⟩ := uvmalloc_grew image.owns (fun vpn _ => image.exact vpn) more
  refine ⟨_, u', ran, grew.extends, ?_⟩
  refine (image.laid.uvmalloc few more ran).imp (fun done => ⟨done.1, ?_⟩) fun fails => fails
  obtain ⟨result, laid⟩ := done
  -- without new pages nothing fails
  have whole : u.Grew rest (pageCount sz) (pageCount newsz) u' := by
    cases grown with
    | true => exact grew
    | false =>
        obtain rfl : newsz = 0 := result.symm
        obtain rfl : sz = 0 := Nat.le_zero.mp more
        exact grew
  have cases : ∀ {vpn pte}, u'.leafAt vpn = some pte →
      (pageCount sz ≤ vpn ∧ vpn < pageCount newsz ∧
          ∃ pa, pte = { pa := pa, r := true, w := true, x := true, u := true }) ∨
        u.leafAt vpn = some pte := by
    intro vpn pte found
    by_cases inside : pageCount sz ≤ vpn ∧ vpn < pageCount newsz
    · obtain ⟨-, pa, there⟩ := whole.leaves.added vpn inside.1 inside.2
      exact .inl ⟨inside.1, inside.2, pa, Option.some.inj (found.symm.trans there)⟩
    · exact .inr ((whole.leaves.others vpn inside).symm.trans found)
  have exact : u'.ExactPages newsz := fun vpn => by
    constructor
    · intro there
      obtain ⟨pte, found⟩ := Option.isSome_iff_exists.mp there
      rcases cases found with ⟨-, below, -⟩ | old
      · exact lt_pageCount.mp below
      · exact lt_of_lt_of_le ((image.exact vpn).mp (Option.isSome_iff_exists.mpr ⟨pte, old⟩)) more
    · intro below
      by_cases new : pageCount sz ≤ vpn
      · obtain ⟨-, pa, there⟩ := whole.leaves.added vpn new (lt_pageCount.mpr below)
        exact Option.isSome_iff_exists.mpr ⟨_, there⟩
      · rw [whole.leaves.others vpn fun inside => new inside.1, image.exact, ← lt_pageCount]
        omega
  have bound := (le_frameCount (pageCount newsz)).trans (Nat.le_of_add_left_le laid.count.le)
  refine ⟨⟨whole.owns, exact, ?_⟩, ?_, laid⟩
  · have small : newsz < 2 ^ 64 := by
      unfold pageCount at bound
      simp only [PGSIZE] at bound
      omega
    rw [result] at ran
    rcases image.pages.uvmalloc image.owns small ran with pages | ⟨rfl, pages⟩
    · exact pages
    · rwa [Nat.le_zero.mp more] at pages
  · intro vpn pte found
    rcases cases found with ⟨-, -, pa, rfl⟩ | old
    · rfl
    · exact image.user old

/-- What `readi` returns does not depend on the buffer. -/
theorem readi_got (ip : Inode) (dst : Page) (off n : Nat) :
    (ip.readi dst off n).2 = (ip.readi (fun _ => 0) off n).2 := by
  unfold Inode.readi
  split <;> rfl

/-- The loop of `loadseg` ends before the first page that the file does not have. -/
theorem loadPages_spec {va filesz count : Nat} (ip : Inode) (off i : Nat)
    (pages : ∀ k, i ≤ k → k < i + count → (u.walkaddr ((va + k * PGSIZE) % 2 ^ 64)).isSome) :
    ∃ loaded u', loadPages ip va off filesz count (i * PGSIZE) u = .ok (loaded, u') ∧
      u'.kmem.freelist = u.kmem.freelist ∧
      (loaded = true ↔ ∀ k, i ≤ k → k < i + count →
        (ip.readi (fun _ => 0) ((off + k * PGSIZE) % 2 ^ 32) (min PGSIZE (filesz - k * PGSIZE))).2 =
          min PGSIZE (filesz - k * PGSIZE)) := by
  induction count generalizing u i with
  | zero => exact ⟨true, u, rfl, rfl, by simp; omega⟩
  | succ count ih =>
      obtain ⟨pa, found⟩ := Option.isSome_iff_exists.mp (pages i le_rfl (by omega))
      rw [loadPages, found]
      obtain ⟨⟨page, got⟩, read⟩ : ∃ result, ip.readi (u.kmem.mem pa) ((off + i * PGSIZE) % 2 ^ 32)
        (min PGSIZE (filesz - i * PGSIZE)) = result := ⟨_, rfl⟩
      have same := readi_got ip (u.kmem.mem pa) ((off + i * PGSIZE) % 2 ^ 32) (min PGSIZE (filesz - i * PGSIZE))
      simp only [read] at same ⊢
      by_cases all : got = min PGSIZE (filesz - i * PGSIZE)
      · rw [if_neg (not_not.mpr all)]
        have step : i * PGSIZE + PGSIZE = (i + 1) * PGSIZE := by ring
        rw [step]
        obtain ⟨loaded, u', ran, free, spec⟩ := ih (u := ⟨u.kmem.setPage pa page, u.pagetable⟩) (i := i + 1)
          fun k low high => pages k (by omega) (by omega)
        refine ⟨loaded, u', ran, free, spec.trans ⟨fun later k low high => ?_, fun each k low high => ?_⟩⟩
        · by_cases first : k = i
          · rw [first, ← same, all]
          · exact later k (by omega) (by omega)
        · exact each k (by omega) (by omega)
      · rw [if_pos all]
        refine ⟨false, _, rfl, rfl, by simp, fun each => ?_⟩
        exact absurd (same.trans (each i le_rfl (by omega))) all

/-- `loadseg` of a segment below the size. -/
theorem Image.loadseg {va filesz : Nat} (ip : Inode) (off : Nat) (image : u.Image rest sz frames)
    (aligned : va % PGSIZE = 0) (below : va + filesz ≤ sz) :
    ∃ loaded u', u.loadseg va ip off filesz = .ok (loaded, u') ∧ u.Extends u' rest ∧ u'.Image rest sz frames ∧
      (loaded = true ↔ ∀ k < (filesz + PGSIZE - 1) / PGSIZE,
        (ip.readi (fun _ => 0) ((off + k * PGSIZE) % 2 ^ 32) (min PGSIZE (filesz - k * PGSIZE))).2 =
          min PGSIZE (filesz - k * PGSIZE)) := by
  have bound := image.pages.sz_le image.owns
  have mapped : ∀ k, 0 ≤ k → k < 0 + (filesz + PGSIZE - 1) / PGSIZE →
      (u.walkaddr ((va + k * PGSIZE) % 2 ^ 64)).isSome := by
    intro k _ less
    have address : (va + k * PGSIZE) % 2 ^ 64 = va + k * PGSIZE ∧ va + k * PGSIZE < MAXVA ∧
        (va + k * PGSIZE) / PGSIZE * PGSIZE < sz := by
      simp only [PGSIZE, MAXVA] at aligned less ⊢
      omega
    obtain ⟨pte, found⟩ := Option.isSome_iff_exists.mp ((image.exact _).mpr address.2.2)
    have entry : u.pagetable.lookup (va + k * PGSIZE) = some pte := found
    rw [walkaddr, address.1, if_neg (not_le.mpr address.2.1), entry]
    simp [image.user found]
  obtain ⟨loaded, u', ran, free, spec⟩ := loadPages_spec ip off 0 mapped
  have whole : u.loadseg va ip off filesz = .ok (loaded, u') := by
    rw [Uvm.loadseg, if_neg (not_not.mpr aligned)]
    simpa using ran
  have writes := loadseg_writes image.owns whole
  refine ⟨loaded, u', whole, writes.extends free, ⟨image.toSized.writes writes, ?_, ?_⟩, ?_⟩
  · intro vpn pte found
    rw [leafAt, writes.table] at found
    exact image.user found
  · exact ⟨image.laid.tabled.congr (by rw [writes.table]), by rw [free]; exact image.laid.count⟩
  · rw [spec]
    simp

theorem loadSegments_none {count off : Nat} (absent : Proghdr.read ip off = none) (sz : Nat) (u : Uvm) :
    loadSegments ip (count + 1) off sz u = .ok (false, sz, u) := by
  obtain ⟨⟨page, got⟩, read⟩ : ∃ result, ip.readi (fun _ => 0) off 56 = result := ⟨_, rfl⟩
  unfold Proghdr.read at absent
  simp only [read] at absent
  split at absent
  · next short =>
    rw [loadSegments]
    simp only [read]
    rw [if_pos short]
    rfl
  · cases absent

/-- The body of the loop, with the header that it reads. -/
theorem loadSegments_some {ph : Proghdr} {count off : Nat} (found : Proghdr.read ip off = some ph) (sz : Nat)
    (u : Uvm) : loadSegments ip (count + 1) off sz u =
      if ph.type ≠ ELF_PROG_LOAD then loadSegments ip count ((off + 56) % 2 ^ 32) sz u
      else if ph.Refused then .ok (false, sz, u)
      else (u.uvmalloc sz ph.stop).bind fun grown =>
        if grown.1 = 0 ∨ ph.vaddr % PGSIZE ≠ 0 then .ok (false, grown)
        else (grown.2.loadseg ph.vaddr ip (ph.off % 2 ^ 32) (ph.filesz % 2 ^ 32)).bind fun filled =>
          if filled.1 then loadSegments ip count ((off + 56) % 2 ^ 32) grown.1 filled.2
          else .ok (false, grown.1, filled.2) := by
  obtain ⟨⟨page, got⟩, read⟩ : ∃ result, ip.readi (fun _ => 0) off 56 = result := ⟨_, rfl⟩
  unfold Proghdr.read at found
  simp only [read] at found
  split at found
  · cases found
  next whole =>
  cases found
  rw [loadSegments]
  simp only [read]
  rw [if_neg whole]
  by_cases other : field page 0 4 ≠ ELF_PROG_LOAD
  · rw [if_pos other, if_pos other]
  rw [if_neg other, if_neg other]
  by_cases longer : field page 40 8 < field page 32 8
  · rw [if_pos longer, if_pos]
    · rfl
    · exact .inl longer
  rw [if_neg longer]
  by_cases wraps : (field page 16 8 + field page 40 8) % 2 ^ 64 < field page 16 8
  · rw [if_pos wraps, if_pos]
    · rfl
    · exact .inr wraps
  rw [if_neg wraps, if_neg]
  swap
  · exact not_or.mpr ⟨longer, wraps⟩
  refine congrArg _ (funext fun grown => ?_)
  by_cases none : grown.1 = 0
  · rw [if_pos none, if_pos (.inl none)]
    rfl
  rw [if_neg none]
  by_cases unaligned : field page 16 8 % PGSIZE ≠ 0
  · rw [if_pos unaligned, if_pos (.inr unaligned)]
    rfl
  rw [if_neg unaligned, if_neg (not_or.mpr ⟨none, unaligned⟩)]
  refine congrArg _ (funext fun filled => ?_)
  cases filled.1 <;> rfl

/-- How the loop over the program headers ends: with an image of the size, before a header with an image that
can be freed, or with the size 0. -/
inductive Ends (rest : Set Frame) (frames : Nat) (last : Nat → Prop) (recoverable : Prop) :
    Bool × Nat × Uvm → Prop where
  | loaded {sz : Nat} {u : Uvm} (image : u.Image rest sz frames) (same : recoverable ↔ last sz) :
      Ends rest frames last recoverable (true, sz, u)
  | stopped {sz : Nat} {u : Uvm} (positive : 0 < sz) (image : u.Image rest sz frames) (recovers : recoverable) :
      Ends rest frames last recoverable (false, sz, u)
  | lost {u : Uvm} (not : ¬ recoverable) : Ends rest frames last recoverable (false, 0, u)

theorem Ends.stop {last : Nat → Prop} {recoverable : Prop} (image : u.Image rest sz frames)
    (condition : recoverable ↔ 0 < sz) : Ends rest frames last recoverable (false, sz, u) := by
  rcases Nat.eq_zero_or_pos sz with rfl | positive
  · exact .lost fun holds => absurd (condition.mp holds) (lt_irrefl 0)
  · exact .stopped positive image (condition.mpr positive)

/-- The loop over the program headers returns. -/
theorem Image.loadSegments {last : Nat → Prop} {count : Nat} (off : Nat) (image : u.Image rest sz frames)
    (few : frames ≤ 2 ^ 15) :
    ∃ result, loadSegments ip count off sz u = .ok result ∧ u.Extends result.2.2 rest ∧
      Ends rest frames last (Proghdr.Recoverable ip frames last count off sz) result := by
  induction count generalizing u off sz with
  | zero => exact ⟨(true, sz, u), rfl, .refl image.owns, .loaded image Iff.rfl⟩
  | succ count ih =>
      cases header : Proghdr.read ip off with
      | none =>
          exact ⟨_, loadSegments_none header sz u, .refl image.owns,
            .stop image (Proghdr.recoverable_none header sz)⟩
      | some ph =>
          rw [loadSegments_some header, Proghdr.recoverable_some header]
          by_cases other : ph.type ≠ ELF_PROG_LOAD
          · rw [if_pos other, if_pos other]
            exact ih _ image
          rw [if_neg other, if_neg other]
          by_cases refused : ph.Refused
          · rw [if_pos refused, if_pos refused]
            exact ⟨_, rfl, .refl image.owns, .stop image Iff.rfl⟩
          rw [if_neg refused, if_neg refused]
          obtain ⟨newsz, grown, alloc, extends₁, result⟩ := image.uvmalloc few ph.stop
          rw [alloc]
          dsimp only [Except.bind]
          rcases result with ⟨rfl, image₁⟩ | ⟨rfl, large⟩
          swap
          · -- no frames are left
            rw [if_pos (.inl rfl)]
            exact ⟨_, rfl, extends₁, .lost fun holds => by omega⟩
          by_cases none : max sz ph.stop = 0
          · rw [if_pos (.inl none), none]
            exact ⟨_, rfl, extends₁, .lost fun holds => absurd holds.1 (lt_irrefl 0)⟩
          have positive : 0 < max sz ph.stop := Nat.pos_of_ne_zero none
          have room : frameCount (pageCount (max sz ph.stop)) ≤ frames := by
            have counted := image₁.laid.count
            omega
          by_cases unaligned : ph.vaddr % PGSIZE ≠ 0
          · rw [if_pos (.inr unaligned)]
            exact ⟨_, rfl, extends₁,
              .stopped positive image₁ ⟨positive, room, fun loads => absurd loads.1 unaligned⟩⟩
          rw [if_neg (not_or.mpr ⟨none, unaligned⟩)]
          have below : ph.vaddr + ph.filesz % 2 ^ 32 ≤ max sz ph.stop :=
            (Proghdr.filesz_le_stop header refused).trans (le_max_right sz ph.stop)
          obtain ⟨loaded, filled, load, extends₂, image₂, whole⟩ :=
            image₁.loadseg ip (ph.off % 2 ^ 32) (not_not.mp unaligned) below
          rw [load]
          cases loaded with
          | false =>
              refine ⟨_, rfl, extends₁.trans extends₂,
                .stopped positive image₂ ⟨positive, room, fun loads => ?_⟩⟩
              exact absurd (whole.mpr loads.2) Bool.false_ne_true
          | true =>
              have loads : ph.Loads ip := ⟨not_not.mp unaligned, whole.mp rfl⟩
              obtain ⟨result, ran, extends₃, ends⟩ := ih ((off + 56) % 2 ^ 32) image₂
              refine ⟨result, ran, (extends₁.trans extends₂).trans extends₃, ?_⟩
              simpa only [positive, room, loads, true_and, true_implies] using ends

theorem copyout_freelist (u : Uvm) (va : Nat) (src : List UInt8) :
    (u.copyout va src).2.kmem.freelist = u.kmem.freelist := by
  induction u, va, src using copyout.induct with
  | case1 u va => rw [copyout, dif_pos rfl]
  | case2 u va src more fails => rw [copyout, dif_neg more, fails]
  | case3 u va src more pa0 found n page ih =>
      rw [copyout, dif_neg more, found]
      exact ih

/-- The page of the stack is there for the user. -/
def StackPage (u : Uvm) (base : Nat) : Prop :=
  base % PGSIZE = 0 ∧ base + PGSIZE ≤ MAXVA ∧ (u.walkaddr base).isSome

theorem StackPage.congr {base : Nat} (page : u.StackPage base) (same : u'.pagetable = u.pagetable) :
    u'.StackPage base := by
  refine ⟨page.1, page.2.1, ?_⟩
  have there := page.2.2
  unfold walkaddr at there ⊢
  rwa [same]

theorem StackPage.copyout {base va : Nat} {src : List UInt8} (page : u.StackPage base) (low : base ≤ va)
    (high : va + src.length ≤ base + PGSIZE) : (u.copyout va src).1 = true := by
  obtain ⟨aligned, top, there⟩ := page
  have small : va < 2 ^ 64 := by
    simp only [PGSIZE, MAXVA] at top high
    omega
  rw [copyout_eq_true_iff, reach_eq_iff _ small]
  intro k below
  have address : pgRoundDown ((va + k) % 2 ^ 64) = base := by
    unfold pgRoundDown
    simp only [PGSIZE, MAXVA] at aligned top high ⊢
    omega
  rwa [Mapped, address]

/-- Behind the end of the address space nothing is copied. -/
theorem copyout_high {va : Nat} {src : List UInt8} (high : MAXVA ≤ va) (small : va < 2 ^ 64) (more : src ≠ []) :
    (u.copyout va src).1 = false := by
  rw [← Bool.not_eq_true, copyout_eq_true_iff, reach_eq_iff _ small]
  intro all
  have first := all 0 (List.length_pos_iff.mpr more)
  rw [Mapped, Nat.add_zero, Nat.mod_eq_of_lt small, walkaddr, if_pos] at first
  · cases first
  · unfold pgRoundDown
    simp only [PGSIZE, MAXVA] at high ⊢
    omega

/-- The bytes of the stack that an argument takes. -/
def argBytes (arg : List UInt8) : Nat := (arg.length / 16 + 1) * 16

/-- The bytes of the stack that the arguments take. -/
def stackBytes (argv : List (List UInt8)) : Nat := (argv.map argBytes).sum

theorem stackBytes_mod (argv : List (List UInt8)) : stackBytes argv % 16 = 0 := by
  induction argv with
  | nil => rfl
  | cons arg more ih =>
      have bytes : stackBytes (arg :: more) = argBytes arg + stackBytes more := rfl
      rw [bytes, argBytes]
      omega

/-- The strings and the array of their addresses fit on one page, and there are no more than 32. -/
def StackFits (argv : List (List UInt8)) : Prop :=
  argv.length ≤ MAXARG ∧ stackBytes argv + ((argv.length + 1) * 8 + 15) / 16 * 16 ≤ PGSIZE

instance (argv : List (List UInt8)) : Decidable (StackFits argv) := inferInstanceAs (Decidable (_ ∧ _))

/-- The place of the next string. -/
theorem sub64_arg {sp : Nat} {arg : List UInt8} (aligned : sp % 16 = 0) (small : sp ≤ MAXVA)
    (enough : arg.length + 1 ≤ sp) : argBytes arg ≤ sp ∧
      sub64 sp (arg.length + 1) - sub64 sp (arg.length + 1) % 16 = sp - argBytes arg := by
  unfold sub64 argBytes
  simp only [MAXVA] at small
  omega

/-- The strings are pushed if they fit. The lengths are of type `int`. -/
theorem StackPage.pushArgs {base sp : Nat} {args : List (List UInt8)} {ustack : List Nat}
    (page : u.StackPage base) (strlen : ∀ arg ∈ args, arg.length < 2 ^ 31) (low : base ≤ sp)
    (high : sp ≤ base + PGSIZE) (aligned : sp % 16 = 0) (count : ustack.length ≤ MAXARG) :
    ∃ result u', pushArgs base args sp ustack u = (result, u') ∧ u'.kmem.freelist = u.kmem.freelist ∧
      u'.pagetable = u.pagetable ∧
      (ustack.length + args.length ≤ MAXARG ∧ base + stackBytes args ≤ sp →
        ∃ ustack', result = some (sp - stackBytes args, ustack') ∧
          ustack'.length = ustack.length + args.length) ∧
      (¬ (ustack.length + args.length ≤ MAXARG ∧ base + stackBytes args ≤ sp) → result = none) := by
  induction args generalizing u sp ustack with
  | nil =>
      exact ⟨some (sp, ustack), u, rfl, rfl, rfl, fun _ => ⟨ustack, rfl, rfl⟩,
        fun not => absurd ⟨count, low⟩ not⟩
  | cons arg more ih =>
      obtain ⟨short, strlen⟩ := List.forall_mem_cons.mp strlen
      have bytes : stackBytes (arg :: more) = argBytes arg + stackBytes more := rfl
      have top : sp ≤ MAXVA := high.trans page.2.1
      have least : arg.length + 1 ≤ argBytes arg ∧ argBytes arg % 16 = 0 := by
        unfold argBytes
        omega
      rw [Uvm.pushArgs, bytes, List.length_cons]
      by_cases full : ustack.length ≥ MAXARG
      · rw [if_pos full]
        exact ⟨none, u, rfl, rfl, rfl, fun fits => by omega, fun _ => rfl⟩
      rw [if_neg full]
      by_cases enough : arg.length + 1 ≤ sp
      · obtain ⟨room, place⟩ := sub64_arg aligned top enough
        simp only [place]
        by_cases under : sp - argBytes arg < base
        · rw [if_pos under]
          exact ⟨none, u, rfl, rfl, rfl, fun fits => by omega, fun _ => rfl⟩
        rw [if_neg under]
        have copied : (u.copyout (sp - argBytes arg) (arg ++ [0])).1 = true := by
          refine page.copyout (by omega) ?_
          rw [List.length_append, List.length_singleton]
          omega
        have table := u.copyout_pagetable (sp - argBytes arg) (arg ++ [0])
        have free := u.copyout_freelist (sp - argBytes arg) (arg ++ [0])
        obtain ⟨result, u', ran, free', table', fits, tooMany⟩ := ih (page.congr table) strlen
          (show base ≤ sp - argBytes arg by omega) (by omega) (by omega)
          (show (ustack ++ [sp - argBytes arg]).length ≤ MAXARG by
            rw [List.length_append, List.length_singleton]
            omega)
        rw [List.length_append, List.length_singleton] at fits tooMany
        rw [copied, if_pos rfl]
        have same : ustack.length + 1 + more.length ≤ MAXARG ∧ base + stackBytes more ≤ sp - argBytes arg ↔
            ustack.length + (more.length + 1) ≤ MAXARG ∧ base + (argBytes arg + stackBytes more) ≤ sp := by
          clear fits tooMany
          omega
        rw [same] at fits tooMany
        refine ⟨result, u', ran, free'.trans free, table'.trans table, fun all => ?_, tooMany⟩
        obtain ⟨ustack', rfl, length⟩ := fits all
        exact ⟨ustack', by rw [Nat.sub_sub], by omega⟩
      · -- the address is behind the end of the address space
        have wrapped : MAXVA ≤ sub64 sp (arg.length + 1) - sub64 sp (arg.length + 1) % 16 ∧
            sub64 sp (arg.length + 1) < 2 ^ 64 := by
          unfold sub64
          simp only [MAXVA] at top ⊢
          omega
        have behind : ¬ sub64 sp (arg.length + 1) - sub64 sp (arg.length + 1) % 16 < base := by
          have below := page.2.1
          omega
        have failed := copyout_high (u := u) wrapped.1 (by omega) (show arg ++ [0] ≠ [] by simp)
        dsimp only
        rw [if_neg behind, failed, if_neg Bool.false_ne_true]
        exact ⟨none, _, rfl, u.copyout_freelist _ _, u.copyout_pagetable _ _, fun fits => by omega,
          fun _ => rfl⟩

/-- Push the array of the addresses of the strings. The results are the stack pointer and the number of
arguments, or `none` for `goto bad`, the size, and the page table. -/
def pushArray (u : Uvm) (stackbase sz sp : Nat) (ustack : List Nat) : Option (Nat × Nat) × Nat × Uvm :=
  let sp := sub64 sp ((ustack.length + 1) * 8)
  let sp := sp - sp % 16
  if sp < stackbase then (none, sz, u)
  else
    let (copied, u) := u.copyout sp (wordBytes (ustack ++ [0]))
    (if copied then some (sp, ustack.length) else none, sz, u)

/-- The part of `exec` behind the program headers: the stack with the arguments. -/
def buildStack (u : Uvm) (sz : Nat) (argv : List (List UInt8)) :
    Except Fault (Option (Nat × Nat) × Nat × Uvm) := do
  let sz := pgRoundUp sz
  let (sz, u) ← u.uvmalloc sz ((sz + 2 * PGSIZE) % 2 ^ 64)
  if sz = 0 then return (none, sz, u)
  let u ← u.uvmclear (sub64 sz (2 * PGSIZE))
  let stackbase := sub64 sz PGSIZE
  match pushArgs stackbase argv sz [] u with
  | (none, u) => return (none, sz, u)
  | (some (sp, ustack), u) => return u.pushArray stackbase sz sp ustack

theorem length_wordBytes (words : List Nat) : (wordBytes words).length = 8 * words.length := by
  induction words with
  | nil => rfl
  | cons word words ih =>
      rw [wordBytes, List.flatMap_cons, List.length_append, List.length_map, List.length_range,
        List.length_cons]
      have rest : (words.flatMap fun word => (List.range 8).map fun k => UInt8.ofNat (word / 256 ^ k)).length =
          8 * words.length := ih
      omega

/-- A size and the whole of its last page. -/
theorem Image.roundUp (image : u.Image rest sz frames) (few : frames ≤ 2 ^ 15) :
    pgRoundUp sz = pageCount sz * PGSIZE ∧ u.Image rest (pageCount sz * PGSIZE) frames ∧
      pageCount sz ≤ 2 ^ 15 := by
  have bound := (le_frameCount (pageCount sz)).trans (Nat.le_of_add_left_le image.laid.count.le)
  have small := bound.trans few
  have up := pgRoundUp_eq small
  have same : pageCount (pageCount sz * PGSIZE) = pageCount sz := by
    unfold pageCount
    simp only [PGSIZE]
    omega
  refine ⟨up, ⟨⟨image.owns, fun vpn => ?_, ?_⟩, image.user, ?_⟩, small⟩
  · rw [image.exact, ← lt_pageCount, ← lt_pageCount, same]
  · rw [← up]
    exact pages_roundUp image.pages (image.pages.sz_le image.owns)
  · rw [same]
    exact image.laid

/-- `uvmclear` of the page below the stack. -/
theorem Image.uvmclear {n : Nat} (image : u.Image rest ((n + 2) * PGSIZE) frames)
    (top : (n + 2) * PGSIZE ≤ MAXVA) :
    ∃ u', u.uvmclear (n * PGSIZE) = .ok u' ∧ u'.Sized rest ((n + 2) * PGSIZE) ∧ u'.kmem = u.kmem ∧
      u.Extends u' rest ∧ u'.StackPage ((n + 1) * PGSIZE) := by
  have page : n * PGSIZE / PGSIZE = n := Nat.mul_div_cancel n (by decide)
  have below : n * PGSIZE < (n + 2) * PGSIZE := Nat.mul_lt_mul_of_pos_right (by omega) (by decide)
  obtain ⟨pte, found⟩ := Option.isSome_iff_exists.mp ((image.exact n).mpr below)
  have clear : u.uvmclear (n * PGSIZE) =
      .ok ⟨u.kmem, u.pagetable.setLeaf (n * PGSIZE) { pte with u := false }⟩ := by
    have walked : u.pagetable.walk (n * PGSIZE) = .ok (some pte) := by
      rw [PageTable.walk, if_neg (not_le.mpr (below.trans_le top)), PageTable.lookup, page]
      exact congrArg Except.ok found
    rw [Uvm.uvmclear, walked]
    rfl
  obtain ⟨owns, -, leaves⟩ := uvmclear_spec image.owns clear
  have pages := pages_uvmclear image.pages (by rwa [page]) leaves
  rw [page] at leaves
  have places : (u.pagetable.setLeaf (n * PGSIZE) { pte with u := false }).frameAt = u.pagetable.frameAt := by
    rw [PageTable.frameAt_setLeaf, Function.update_eq_self_iff, page]
    exact (congrArg (Option.map Pte.pa) found).symm
  refine ⟨_, clear, ⟨owns, fun vpn => ?_, pages⟩, rfl, ⟨owns, rfl, id, fun _ _ => rfl, ?_⟩,
    Nat.mul_mod_left _ _, ?_, ?_⟩
  · rw [← image.exact, leaves]
    split <;> simp
  · unfold pool PageTable.frames
    rw [places]
  · rwa [← Nat.succ_mul]
  · have stack : (n + 1) * PGSIZE < (n + 2) * PGSIZE := Nat.mul_lt_mul_of_pos_right (by omega) (by decide)
    obtain ⟨pte', found'⟩ := Option.isSome_iff_exists.mp ((image.exact (n + 1)).mpr stack)
    have entry := leaves (n + 1)
    rw [if_neg (by omega), found'] at entry
    have lookup :
        (u.pagetable.setLeaf (n * PGSIZE) { pte with u := false }).lookup ((n + 1) * PGSIZE) = some pte' := by
      rw [PageTable.lookup, Nat.mul_div_cancel _ (show 0 < PGSIZE by decide)]
      exact entry
    rw [walkaddr, if_neg (not_le.mpr (stack.trans_le top)), lookup]
    simp [image.user found']


/-- Without frames for the stack there is none. -/
theorem buildStack_none {argv : List (List UInt8)} {grown : Uvm}
    (alloc : u.uvmalloc (pgRoundUp sz) ((pgRoundUp sz + 2 * PGSIZE) % 2 ^ 64) = .ok (0, grown)) :
    u.buildStack sz argv = .ok (none, 0, grown) := bind_ok.mpr ⟨(0, grown), alloc, rfl⟩

/-- The stack has pages, and the strings are pushed or not. -/
theorem buildStack_pushed {argv : List (List UInt8)} {newsz sp : Nat} {ustack : List Nat}
    {grown cleared pushed : Uvm} (positive : newsz ≠ 0)
    (alloc : u.uvmalloc (pgRoundUp sz) ((pgRoundUp sz + 2 * PGSIZE) % 2 ^ 64) = .ok (newsz, grown))
    (clear : grown.uvmclear (sub64 newsz (2 * PGSIZE)) = .ok cleared)
    (push : pushArgs (sub64 newsz PGSIZE) argv newsz [] cleared = (some (sp, ustack), pushed)) :
    u.buildStack sz argv = .ok (pushed.pushArray (sub64 newsz PGSIZE) newsz sp ustack) := by
  refine bind_ok.mpr ⟨(newsz, grown), alloc, ?_⟩
  dsimp only
  rw [if_neg positive]
  refine bind_ok.mpr ⟨cleared, clear, ?_⟩
  simp only [push]
  rfl

theorem buildStack_refused {argv : List (List UInt8)} {newsz : Nat} {grown cleared pushed : Uvm}
    (positive : newsz ≠ 0)
    (alloc : u.uvmalloc (pgRoundUp sz) ((pgRoundUp sz + 2 * PGSIZE) % 2 ^ 64) = .ok (newsz, grown))
    (clear : grown.uvmclear (sub64 newsz (2 * PGSIZE)) = .ok cleared)
    (push : pushArgs (sub64 newsz PGSIZE) argv newsz [] cleared = (none, pushed)) :
    u.buildStack sz argv = .ok (none, newsz, pushed) := by
  refine bind_ok.mpr ⟨(newsz, grown), alloc, ?_⟩
  dsimp only
  rw [if_neg positive]
  refine bind_ok.mpr ⟨cleared, clear, ?_⟩
  simp only [push]
  rfl

/-- The place of the array. -/
theorem sub64_array {sp argc : Nat} (aligned : sp % 16 = 0) (small : sp ≤ MAXVA) (large : PGSIZE ≤ sp)
    (few : argc ≤ MAXARG) :
    sub64 sp ((argc + 1) * 8) - sub64 sp ((argc + 1) * 8) % 16 = sp - ((argc + 1) * 8 + 15) / 16 * 16 := by
  unfold sub64
  simp only [MAXVA, PGSIZE, MAXARG] at small large few
  omega

/-- The array is pushed if it fits. -/
theorem StackPage.pushArray {base sp : Nat} {ustack : List Nat} (page : u.StackPage base) (owns : u.Owns rest)
    (large : PGSIZE ≤ base) (low : base ≤ sp) (high : sp ≤ base + PGSIZE) (aligned : sp % 16 = 0)
    (few : ustack.length ≤ MAXARG) (sz : Nat) :
    ∃ args u', u.pushArray base sz sp ustack = (args, sz, u') ∧ u'.kmem.freelist = u.kmem.freelist ∧
      u.Writes u' rest ∧
      (base + ((ustack.length + 1) * 8 + 15) / 16 * 16 ≤ sp → ∃ sp', args = some (sp', ustack.length)) ∧
      (¬ base + ((ustack.length + 1) * 8 + 15) / 16 * 16 ≤ sp → args = none) := by
  have place := sub64_array aligned (high.trans page.2.1) (large.trans low) few
  have most : ((ustack.length + 1) * 8 + 15) / 16 * 16 ≤ PGSIZE := by
    simp only [PGSIZE, MAXARG] at few ⊢
    omega
  unfold Uvm.pushArray
  simp only [place]
  by_cases under : sp - ((ustack.length + 1) * 8 + 15) / 16 * 16 < base
  · rw [if_pos under]
    exact ⟨none, u, rfl, rfl, .refl owns, fun fits => by omega, fun _ => rfl⟩
  rw [if_neg under]
  have copied :
      (u.copyout (sp - ((ustack.length + 1) * 8 + 15) / 16 * 16) (wordBytes (ustack ++ [0]))).1 = true := by
    refine page.copyout (not_lt.mp under) ?_
    rw [length_wordBytes, List.length_append, List.length_singleton]
    omega
  rw [copied]
  exact ⟨_, _, rfl, u.copyout_freelist _ _, copyout_writes owns rfl, fun _ => ⟨_, rfl⟩, fun not => by omega⟩

/-- The stack is built if there are frames for it, and the arguments are there if they fit. -/
theorem Image.buildStack {argv : List (List UInt8)} (image : u.Image rest sz frames) (few : frames ≤ 2 ^ 15)
    (strlen : ∀ arg ∈ argv, arg.length < 2 ^ 31) :
    ∃ args sz' u', u.buildStack sz argv = .ok (args, sz', u') ∧ u.Extends u' rest ∧
      (frames < frameCount (pageCount sz + 2) ∧ args = none ∧ sz' = 0 ∨
        frameCount (pageCount sz + 2) ≤ frames ∧ 0 < sz' ∧ u'.Sized rest sz' ∧
          (StackFits argv ∧ (∃ sp, args = some (sp, argv.length)) ∨ ¬ StackFits argv ∧ args = none)) := by
  obtain ⟨up, image₀, small⟩ := image.roundUp few
  have newsz : (pageCount sz * PGSIZE + 2 * PGSIZE) % 2 ^ 64 = (pageCount sz + 2) * PGSIZE := by
    simp only [PGSIZE]
    omega
  have larger : max (pageCount sz * PGSIZE) ((pageCount sz + 2) * PGSIZE) = (pageCount sz + 2) * PGSIZE :=
    max_eq_right (Nat.mul_le_mul_right _ (by omega))
  have count : pageCount ((pageCount sz + 2) * PGSIZE) = pageCount sz + 2 := by
    unfold pageCount
    simp only [PGSIZE]
    omega
  obtain ⟨sz₁, grown, alloc, extends₁, result⟩ := image₀.uvmalloc few ((pageCount sz + 2) * PGSIZE)
  rw [larger] at result
  have alloc' : u.uvmalloc (pgRoundUp sz) ((pgRoundUp sz + 2 * PGSIZE) % 2 ^ 64) = .ok (sz₁, grown) := by
    rw [up, newsz]
    exact alloc
  rcases result with ⟨rfl, image₁⟩ | ⟨rfl, large⟩
  swap
  · rw [count] at large
    exact ⟨none, 0, grown, buildStack_none alloc', extends₁, .inl ⟨large, rfl, rfl⟩⟩
  have counted := image₁.laid.count
  rw [count] at counted
  have room : frameCount (pageCount sz + 2) ≤ frames := by omega
  have top : (pageCount sz + 2) * PGSIZE ≤ MAXVA := by
    simp only [PGSIZE, MAXVA]
    omega
  have positive : 0 < (pageCount sz + 2) * PGSIZE := Nat.mul_pos (by omega) (by decide)
  have guard : sub64 ((pageCount sz + 2) * PGSIZE) (2 * PGSIZE) = pageCount sz * PGSIZE := by
    unfold sub64
    simp only [PGSIZE, MAXVA] at top ⊢
    omega
  have base : sub64 ((pageCount sz + 2) * PGSIZE) PGSIZE = (pageCount sz + 1) * PGSIZE := by
    unfold sub64
    simp only [PGSIZE, MAXVA] at top ⊢
    omega
  obtain ⟨cleared, clear, sized, -, extends₂, page⟩ := image₁.uvmclear top
  rw [← guard] at clear
  have stack : (pageCount sz + 2) * PGSIZE = (pageCount sz + 1) * PGSIZE + PGSIZE := Nat.succ_mul _ _
  have above : (pageCount sz + 1) * PGSIZE ≤ (pageCount sz + 2) * PGSIZE := by
    rw [stack]
    exact Nat.le_add_right _ _
  obtain ⟨args, pushed, push, free, table, fits, tooMany⟩ := page.pushArgs strlen above stack.le
    (by simp only [PGSIZE]; omega) (show ([] : List Nat).length ≤ MAXARG from Nat.zero_le _)
  rw [List.length_nil, Nat.zero_add] at fits tooMany
  have writes := pushArgs_writes sized.owns push
  have soFar := (extends₁.trans extends₂).trans (writes.extends free)
  rw [← base] at push
  have stacked : StackFits argv ↔ (argv.length ≤ MAXARG ∧ (pageCount sz + 1) * PGSIZE + stackBytes argv ≤
      (pageCount sz + 2) * PGSIZE) ∧ (pageCount sz + 1) * PGSIZE + ((argv.length + 1) * 8 + 15) / 16 * 16 ≤
        (pageCount sz + 2) * PGSIZE - stackBytes argv := by
    unfold StackFits
    omega
  by_cases strings : argv.length ≤ MAXARG ∧
      (pageCount sz + 1) * PGSIZE + stackBytes argv ≤ (pageCount sz + 2) * PGSIZE
  swap
  · obtain rfl := tooMany strings
    exact ⟨none, _, pushed, buildStack_refused positive.ne' alloc' clear push, soFar, .inr ⟨room, positive,
      sized.writes writes, .inr ⟨fun all => strings (stacked.mp all).1, rfl⟩⟩⟩
  obtain ⟨ustack, rfl, length⟩ := fits strings
  have aligned : ((pageCount sz + 2) * PGSIZE - stackBytes argv) % 16 = 0 := by
    have bytes := stackBytes_mod argv
    have enough := strings.2
    simp only [PGSIZE] at enough ⊢
    omega
  obtain ⟨result, u', array, free', writes', fits', tooMany'⟩ := (page.congr table).pushArray writes.owns
    (show PGSIZE ≤ (pageCount sz + 1) * PGSIZE by simp only [PGSIZE]; omega)
    (Nat.le_sub_of_add_le strings.2) ((Nat.sub_le _ _).trans stack.le) aligned (length.le.trans strings.1)
    ((pageCount sz + 2) * PGSIZE)
  rw [length] at fits' tooMany'
  have ran := buildStack_pushed positive.ne' alloc' clear push
  rw [base, array] at ran
  refine ⟨result, _, u', ran, soFar.trans (writes'.extends free'), .inr ⟨room, positive, ?_, ?_⟩⟩
  · exact (sized.writes writes).writes writes'
  · by_cases all : (pageCount sz + 1) * PGSIZE + ((argv.length + 1) * 8 + 15) / 16 * 16 ≤
        (pageCount sz + 2) * PGSIZE - stackBytes argv
    · exact .inl ⟨stacked.mpr ⟨strings, all⟩, fits' all⟩
    · exact .inr ⟨fun whole => all (stacked.mp whole).2, tooMany' all⟩

end Uvm

section procPagetable

variable {m : Kmem} {tf : Frame} {owned : Set Frame}

/-- `proc_pagetable` with frames for the root and for the pages that lead to the trampoline. -/
theorem procPagetable_image (keeps : m.Keeps owned) (enough : 3 ≤ m.freelist.length) :
    ∃ u, procPagetable m tf = .ok (u, ⟨true, some tf⟩) ∧ u.Image owned 0 (m.freelist.length - 3) ∧
      u.pool = {f | f ∈ m.freelist} ∧ Set.EqOn u.kmem.mem m.mem owned ∧
      u.pagetable.reaches TRAMPOLINE = true ∧ u.pagetable.reaches TRAPFRAME = true := by
  obtain ⟨f₀, f₁, f₂, free, list⟩ : ∃ f₀ f₁ f₂ free, m.freelist = f₀ :: f₁ :: f₂ :: free := by
    match list : m.freelist, enough with
    | f₀ :: f₁ :: f₂ :: free, _ => exact ⟨f₀, f₁, f₂, free, rfl⟩
  obtain ⟨m', alloc, list'⟩ : ∃ m', m.kalloc = some (f₀, m') ∧ m'.freelist = f₁ :: f₂ :: free := by
    unfold Kmem.kalloc
    rw [list]
    exact ⟨_, rfl, rfl⟩
  have start : Uvm.uvmcreate m = .ok ⟨m'.setPage f₀ fun _ => 0, ⟨f₀, ∅, ∅⟩⟩ := by
    unfold Uvm.uvmcreate
    rw [alloc]
  have rootOnly : (⟨m'.setPage f₀ fun _ => 0, ⟨f₀, ∅, ∅⟩⟩ : Uvm).pagetable.tables.lookup (2, 255) = none := rfl
  obtain ⟨u₁, first, list₁, tables₁, -⟩ := Uvm.child_new rootOnly list'
  have tables₁ : u₁.pagetable.tables = AList.insert (2, 255) f₁ ∅ := tables₁
  have absent : u₁.pagetable.tables.lookup (1, 131071) = none := by
    rw [tables₁, AList.lookup_insert_ne (by decide)]
    rfl
  obtain ⟨u₂, second, list₂, tables₂, -⟩ := Uvm.child_new absent list₁
  rw [tables₁] at tables₂
  have upper : u₂.pagetable.tables.lookup (2, 255) = some f₁ := by
    rw [tables₂, AList.lookup_insert_ne (by decide), AList.lookup_insert]
  have lower : u₂.pagetable.tables.lookup (1, 131071) = some f₂ := by
    rw [tables₂, AList.lookup_insert]
  have reached : ((u₂.pagetable.tables.lookup (2, 255)).isSome &&
      (u₂.pagetable.tables.lookup (1, 131071)).isSome) = true := by
    rw [upper, lower]
    rfl
  have ran : procPagetable m tf = .ok (u₂, ⟨true, some tf⟩) := by
    refine bind_ok.mpr ⟨_, start, bind_ok.mpr ⟨(true, u₂), Uvm.walkAlloc_child (by decide) first second, ?_⟩⟩
    exact bind_ok.mpr
      ⟨(true, u₂), Uvm.walkAlloc_child (by decide) (Uvm.child_hit upper) (Uvm.child_hit lower), rfl⟩
  obtain ⟨owns, leaves, mem⟩ := Machine.FrameInv.procPagetable_owns keeps ran
  have none : ∀ vpn, u₂.leafAt vpn = Option.none := fun vpn => by
    rw [Uvm.leafAt, leaves]
    rfl
  have empty : Uvm.pageCount 0 = 0 := rfl
  refine ⟨u₂, ran, ⟨⟨owns, fun vpn => ?_, ?_, ?_⟩, ?_, ⟨?_, ?_⟩, ?_⟩, ?_, mem, ?_, ?_⟩
  · simp [none]
  · exact fun vpn below => absurd below (Nat.not_lt_zero _)
  · intro vpn pte found
    cases (none vpn).symm.trans found
  · intro vpn pte found
    cases (none vpn).symm.trans found
  · intro i below
    have apart : (2, i) ≠ (2, 255) := by simpa using (show i ≠ 255 by omega)
    rw [tables₂, AList.lookup_insert_ne (by simp), AList.lookup_insert_ne apart]
    simp [empty]
  · intro i below
    have apart : (1, i) ≠ (1, 131071) := by simpa using (show i ≠ 131071 by omega)
    rw [tables₂, AList.lookup_insert_ne apart, AList.lookup_insert_ne (by simp)]
    simp [empty]
  · rw [list₂, list]
    rfl
  · exact procPagetable_pool ran
  · exact reached
  · exact reached

end procPagetable

namespace Uvm

variable {u : Uvm} {ip : Inode}

/-- Without frames `uvmalloc` of an empty table does nothing. -/
theorem uvmalloc_empty (empty : u.kmem.freelist = []) (newsz : Nat) : u.uvmalloc 0 newsz = .ok (0, u) := by
  rw [Uvm.uvmalloc, if_neg (Nat.not_lt_zero newsz)]
  have zero : pgRoundUp 0 = 0 := rfl
  simp only [zero]
  cases count : (newsz - 0 + PGSIZE - 1) / PGSIZE with
  | zero =>
      obtain rfl : newsz = 0 := by
        simp only [PGSIZE] at count
        omega
      rfl
  | succ count =>
      rw [growPages, kalloc_none.mpr empty]
      rfl

/-- Then the loop over the program headers leaves the table as it is. -/
theorem loadSegments_empty (empty : u.kmem.freelist = []) (count off : Nat) :
    ∃ loaded, loadSegments ip count off 0 u = .ok (loaded, 0, u) := by
  induction count generalizing off with
  | zero => exact ⟨true, rfl⟩
  | succ count ih =>
      cases header : Proghdr.read ip off with
      | none => exact ⟨false, loadSegments_none header 0 u⟩
      | some ph =>
          rw [loadSegments_some header, uvmalloc_empty empty]
          by_cases other : ph.type ≠ ELF_PROG_LOAD
          · rw [if_pos other]
            exact ih _
          rw [if_neg other]
          by_cases refused : ph.Refused
          · rw [if_pos refused]
            exact ⟨false, rfl⟩
          · rw [if_neg refused]
            dsimp only [Except.bind]
            rw [if_pos (.inl rfl)]
            exact ⟨false, rfl⟩

theorem buildStack_empty (empty : u.kmem.freelist = []) (argv : List (List UInt8)) :
    u.buildStack 0 argv = .ok (none, 0, u) := buildStack_none (uvmalloc_empty empty _)

end Uvm

end Riscv2os.Xv7
