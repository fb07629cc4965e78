import Riscv2os.Std.ByteMemory
import Riscv2os.Std.LinkedList
import Riscv2os.Std.Loops
import Riscv2os.Std.TransitionSystem
import Riscv2os.Xv7.Vm

/-!
# The physical page allocator

`kalloc.c` in the memory that it manages: the free list lies inside the free pages, and the table
of reference counts lies behind the kernel, from the address `end_` on that the linker sets. The
counts are compared with the references that the callers hold, over every run of calls and of
stores into the pages that they hold.
-/

namespace Riscv2os.Xv7

open Riscv2os.Std
open LinkedList (IsList)

/-- `kmem`, and the physical memory. -/
structure Ram where
  freelist : Nat
  refCount : Nat
  mem : ByteMemory

namespace Ram

variable (end_ : Nat)

/-- `((uint64)pa - (uint64)end) >> 12`. -/
def idx (pa : Nat) : Nat := (pa + 2 ^ 64 - end_) % 2 ^ 64 / 2 ^ 12

/-- The address of `kmem.ref_count[idx]` for a page. -/
def entry (r : Ram) (pa : Nat) : Nat := (r.refCount + 4 * idx end_ pa) % 2 ^ 64

/-- `kmem.ref_count[idx]` for a page. -/
def count (r : Ram) (pa : Nat) : Nat := r.mem.load 4 (r.entry end_ pa)

/-- `kmem.ref_count[idx] = value` for a page. -/
def setCount (r : Ram) (pa value : Nat) : Ram :=
  { r with mem := r.mem.store 4 (r.entry end_ pa) value }

/-- `((struct run*)pa)->next`. -/
def next (r : Ram) (pa : Nat) : Nat := r.mem.load 8 pa

/-- `((struct run*)pa)->next = value`. -/
def setNext (r : Ram) (pa value : Nat) : Ram := { r with mem := r.mem.store 8 pa value }

/-- `kmem.freelist = value`. -/
def setFreelist (r : Ram) (value : Nat) : Ram := { r with freelist := value }

/-- `memset(pa, byte, PGSIZE)`. -/
def fillPage (r : Ram) (pa : Nat) (byte : UInt8) : Ram := { r with mem := r.mem.fill pa PGSIZE byte }

/-- Free the page at an address. -/
def kfree (r : Ram) (pa : Nat) : Except Fault Ram :=
  if pa % PGSIZE ≠ 0 ∨ pa < end_ ∨ PHYSTOP ≤ pa then .error (.panic "kfree")
  else
    let r := (r.fillPage pa 1).setNext pa r.freelist
    .ok ((r.setFreelist pa).setCount end_ pa 0)

/-- Allocate one page. The result is 0 if there is none. -/
def kalloc (r : Ram) : Nat × Ram :=
  if r.freelist = 0 then (0, r)
  else
    let pa := r.freelist
    (pa, ((r.setFreelist (r.next pa)).setCount end_ pa 1).fillPage pa 5)

/-- Count one more reference to a page. -/
def kref (r : Ram) (pa : Nat) : Ram := r.setCount end_ pa ((r.count end_ pa + 1) % 2 ^ 32)

/-- Drop a reference to a page, and free it if the count gets to 0. -/
def kderef (r : Ram) (pa : Nat) : Except Fault Ram :=
  let r := r.setCount end_ pa ((r.count end_ pa + 2 ^ 32 - 1) % 2 ^ 32)
  if r.count end_ pa = 0 then r.kfree end_ pa else .ok r

/-- The loop of `freerange` from the page `p` on. -/
def freeFrom (paEnd : Nat) : Nat → Nat → Ram → Except Fault Ram
  | 0, _, _ => .error .endless
  | fuel + 1, p, r =>
      if p + PGSIZE ≤ paEnd then do
        let r ← r.kfree end_ p
        freeFrom paEnd fuel (p + PGSIZE) r
      else .ok r

/-- Free every page of a range. -/
def freerange (r : Ram) (paStart paEnd : Nat) : Except Fault Ram :=
  freeFrom end_ paEnd (paEnd / PGSIZE + 1) (pgRoundUp paStart) r

/-- `rc_pages`, the pages of the table of counts. -/
def rcPages : Nat := ((PHYSTOP - end_) / 2 ^ 12 + 1) * 4 / 2 ^ 12 + 1

/-- Set up the allocator. The list starts empty, since `kmem` lies in `.bss`. -/
def kinit (mem : ByteMemory) : Except Fault Ram :=
  let r : Ram := { freelist := 0, refCount := end_, mem := mem }
  r.freerange end_ (end_ + rcPages end_ * 2 ^ 12) PHYSTOP

/-! ## Where everything lies -/

/-- The pages that `kinit` frees. -/
def Manages (pa : Nat) : Prop :=
  end_ + rcPages end_ * PGSIZE ≤ pa ∧ pa + PGSIZE ≤ PHYSTOP ∧ pa % PGSIZE = 0

variable {end_} {r r' : Ram} {pa q value : Nat}

/-- The bounds in numbers. -/
theorem Manages.bounds (manages : Manages end_ pa) :
    end_ + rcPages end_ * 4096 ≤ pa ∧ pa + 4096 ≤ 0x88000000 ∧ pa % 4096 = 0 := manages

/-- A managed page is no null pointer. -/
theorem Manages.ne_zero (manages : Manages end_ pa) : pa ≠ 0 := by
  have low := manages.bounds.1
  have positive : 0 < rcPages end_ := Nat.succ_pos _
  omega

/-- Managed pages have different entries in the table. -/
theorem idx_injective (manages : Manages end_ pa) (other : Manages end_ q)
    (same : idx end_ pa = idx end_ q) : pa = q := by
  obtain ⟨low, high, aligned⟩ := manages.bounds
  obtain ⟨low', high', aligned'⟩ := other.bounds
  unfold idx at same
  omega

/-- The entry of a managed page lies in the pages that are reserved for the table. -/
theorem entry_bounds (table : r.refCount = end_) (manages : Manages end_ pa) :
    r.entry end_ pa = end_ + 4 * idx end_ pa ∧
      r.entry end_ pa + 4 ≤ end_ + rcPages end_ * PGSIZE := by
  obtain ⟨low, high, aligned⟩ := manages.bounds
  have index : idx end_ pa = (pa - end_) / 2 ^ 12 := by
    unfold idx
    omega
  have size : rcPages end_ = ((0x88000000 - end_) / 2 ^ 12 + 1) * 4 / 2 ^ 12 + 1 := rfl
  have small : end_ + 4 * idx end_ pa < 2 ^ 64 := by omega
  have address : r.entry end_ pa = end_ + 4 * idx end_ pa := by
    rw [entry, table, Nat.mod_eq_of_lt small]
  refine ⟨address, ?_⟩
  change r.entry end_ pa + 4 ≤ end_ + rcPages end_ * 4096
  omega

@[simp] theorem refCount_setCount : (r.setCount end_ pa value).refCount = r.refCount := rfl

@[simp] theorem refCount_setNext : (r.setNext pa value).refCount = r.refCount := rfl

@[simp] theorem refCount_setFreelist : (r.setFreelist value).refCount = r.refCount := rfl

@[simp] theorem refCount_fillPage {byte : UInt8} : (r.fillPage pa byte).refCount = r.refCount := rfl

theorem next_setFreelist : (r.setFreelist value).next q = r.next q := rfl

theorem count_setFreelist : (r.setFreelist value).count end_ q = r.count end_ q := rfl

section Updates

variable (table : r.refCount = end_) (manages : Manages end_ pa) (other : Manages end_ q)
include manages other

theorem pages_apart (different : q ≠ pa) : q + 4096 ≤ pa ∨ pa + 4096 ≤ q := by
  obtain ⟨low, high, aligned⟩ := manages.bounds
  obtain ⟨low', high', aligned'⟩ := other.bounds
  omega

theorem next_fillPage {byte : UInt8} (different : q ≠ pa) : (r.fillPage pa byte).next q = r.next q := by
  have apart := pages_apart manages other different
  exact ByteMemory.load_fill_apart (show q + 8 ≤ pa ∨ pa + 4096 ≤ q by omega)

theorem next_setNext (fits : value < 2 ^ 64) :
    (r.setNext pa value).next q = if q = pa then value else r.next q := by
  split
  next same =>
    subst same
    exact (ByteMemory.load_store_self ..).trans (Nat.mod_eq_of_lt fits)
  next different =>
    have apart := pages_apart manages other different
    exact ByteMemory.load_store_apart (by omega)

include table

theorem next_setCount : (r.setCount end_ pa value).next q = r.next q := by
  have inTable := (entry_bounds table manages).2
  exact ByteMemory.load_store_apart (.inr (le_trans inTable other.1))

theorem count_setCount (fits : value < 2 ^ 32) :
    (r.setCount end_ pa value).count end_ q = if q = pa then value else r.count end_ q := by
  split
  next same =>
    subst same
    exact (ByteMemory.load_store_self ..).trans (Nat.mod_eq_of_lt fits)
  next different =>
    have distinct : idx end_ q ≠ idx end_ pa := fun same => different (idx_injective other manages same)
    have first := (entry_bounds table manages).1
    have second := (entry_bounds table other).1
    refine ByteMemory.load_store_apart ?_
    change r.entry end_ q + 4 ≤ r.entry end_ pa ∨ r.entry end_ pa + 4 ≤ r.entry end_ q
    omega

theorem count_fillPage {byte : UInt8} : (r.fillPage pa byte).count end_ q = r.count end_ q := by
  have inTable := (entry_bounds table other).2
  exact ByteMemory.load_fill_apart (.inl (le_trans inTable manages.1))

theorem count_setNext : (r.setNext pa value).count end_ q = r.count end_ q := by
  have inTable := (entry_bounds table other).2
  exact ByteMemory.load_store_apart (.inl (le_trans inTable manages.1))

end Updates

/-! ## One call -/

/-- The page is on the free list. -/
def Listed (r : Ram) (pa : Nat) : Prop := ∃ l, IsList r.next 0 r.freelist l ∧ pa ∈ l

/-- The free list has the managed pages of `l`. -/
structure Lists (end_ : Nat) (r : Ram) (l : List Nat) : Prop where
  table : r.refCount = end_
  list : IsList r.next 0 r.freelist l
  managed : ∀ pa ∈ l, Manages end_ pa

namespace Lists

variable {l : List Nat}

theorem listed_iff (lists : r.Lists end_ l) : r.Listed pa ↔ pa ∈ l := by
  constructor
  · rintro ⟨l', list, member⟩
    rwa [lists.list.unique list]
  · intro member
    exact ⟨l, lists.list, member⟩

theorem freelist_lt (lists : r.Lists end_ l) : r.freelist < 2 ^ 64 := by
  cases l with
  | nil =>
      have null : r.freelist = 0 := lists.list.1
      omega
  | cons pa l =>
      have first : r.freelist = pa := lists.list.of_cons.1
      have high := (lists.managed pa (List.mem_cons_self ..)).bounds.2.1
      omega

/-- A store into the count of a managed page. -/
theorem setCount (lists : r.Lists end_ l) (manages : Manages end_ pa) (value : Nat) :
    (r.setCount end_ pa value).Lists end_ l where
  table := lists.table
  list := lists.list.congr fun _ member =>
    next_setCount lists.table manages (lists.managed _ member)
  managed := lists.managed

/-- `kfree` of a managed page that is not free. -/
theorem kfree (lists : r.Lists end_ l) (manages : Manages end_ pa) (fresh : pa ∉ l) :
    ∃ r', r.kfree end_ pa = .ok r' ∧ r'.Lists end_ (pa :: l) ∧
      ∀ q, Manages end_ q → r'.count end_ q = if q = pa then 0 else r.count end_ q := by
  obtain ⟨low, high, aligned⟩ := manages.bounds
  have passes : ¬ (pa % PGSIZE ≠ 0 ∨ pa < end_ ∨ PHYSTOP ≤ pa) := by
    change ¬ (pa % 4096 ≠ 0 ∨ pa < end_ ∨ 0x88000000 ≤ pa)
    omega
  refine ⟨_, if_neg passes, ?_, ?_⟩
  · have linked : IsList (Function.update r.next pa r.freelist) 0 pa (pa :: l) :=
      lists.list.push manages.ne_zero fresh
    have members : ∀ q ∈ pa :: l, Manages end_ q := by
      intro q member
      rcases List.mem_cons.mp member with rfl | member
      · exact manages
      · exact lists.managed q member
    refine ⟨lists.table, linked.congr fun q member => ?_, members⟩
    have other := members q member
    rw [next_setCount (by simpa using lists.table) manages other, next_setFreelist,
      next_setNext manages other lists.freelist_lt, Function.update_apply]
    split
    · rfl
    next different => exact next_fillPage manages other different
  · intro q other
    rw [count_setCount (by simpa using lists.table) manages other (by omega), count_setFreelist,
      count_setNext (by simpa using lists.table) manages other,
      count_fillPage lists.table manages other]

theorem kalloc_nil (lists : r.Lists end_ []) : r.kalloc end_ = (0, r) := if_pos lists.list.1

/-- `kalloc` takes the first page of the list. -/
theorem kalloc_cons (lists : r.Lists end_ (pa :: l)) :
    ∃ r', r.kalloc end_ = (pa, r') ∧ r'.Lists end_ l ∧
      ∀ q, Manages end_ q → r'.count end_ q = if q = pa then 1 else r.count end_ q := by
  obtain ⟨first, real, rest⟩ := lists.list.of_cons
  have manages := lists.managed pa (List.mem_cons_self ..)
  have apart := (List.nodup_cons.mp lists.list.nodup).1
  refine ⟨((r.setFreelist (r.next pa)).setCount end_ pa 1).fillPage pa 5, ?_, ⟨?_, ?_, ?_⟩, ?_⟩
  · subst first
    exact if_neg real
  · simpa using lists.table
  · refine rest.congr fun q member => ?_
    have other := lists.managed q (List.mem_cons_of_mem pa member)
    have different : q ≠ pa := by
      rintro rfl
      exact apart member
    rw [next_fillPage manages other different,
      next_setCount (by simpa using lists.table) manages other, next_setFreelist]
  · intro q member
    exact lists.managed q (List.mem_cons_of_mem pa member)
  · intro q other
    rw [count_fillPage (by simpa using lists.table) manages other,
      count_setCount (by simpa using lists.table) manages other (by omega), count_setFreelist]

end Lists

/-! ## Setting up -/

/-- The loop of `freerange` up to the end of memory, when the managed pages below `p` are free. -/
theorem freeFrom_ok {fuel p : Nat} {l : List Nat} (aligned : p % 4096 = 0)
    (above : end_ + rcPages end_ * 4096 ≤ p) (enough : 0x88000000 < p + (fuel + 1) * 4096)
    (lists : r.Lists end_ l) (below : ∀ q, q ∈ l ↔ Manages end_ q ∧ q < p)
    (unused : ∀ q ∈ l, r.count end_ q = 0) :
    ∃ r' l', freeFrom end_ PHYSTOP (fuel + 1) p r = .ok r' ∧ r'.Lists end_ l' ∧
      (∀ q, q ∈ l' ↔ Manages end_ q) ∧ ∀ q ∈ l', r'.count end_ q = 0 := by
  induction fuel generalizing p r l with
  | zero =>
      have stops : ¬ p + PGSIZE ≤ PHYSTOP := by
        change ¬ p + 4096 ≤ 0x88000000
        omega
      refine ⟨r, l, if_neg stops, lists, fun q => (below q).trans ⟨And.left, fun manages => ?_⟩, unused⟩
      have high := manages.bounds.2.1
      exact ⟨manages, by omega⟩
  | succ fuel ih =>
      by_cases more : p + PGSIZE ≤ PHYSTOP
      · have manages : Manages end_ p := ⟨above, more, aligned⟩
        have fresh : p ∉ l := fun member => absurd ((below p).mp member).2 (lt_irrefl p)
        obtain ⟨r', freed, lists', counts⟩ := lists.kfree manages fresh
        have below' : ∀ q, q ∈ p :: l ↔ Manages end_ q ∧ q < p + PGSIZE := by
          intro q
          rw [List.mem_cons, below]
          constructor
          · rintro (rfl | ⟨other, low⟩)
            · exact ⟨manages, by change q < q + 4096; omega⟩
            · exact ⟨other, by change q < p + 4096; omega⟩
          · rintro ⟨other, low⟩
            have low : q < p + 4096 := low
            have aligned' := other.bounds.2.2
            by_cases same : q = p
            · exact .inl same
            · exact .inr ⟨other, by omega⟩
        have unused' : ∀ q ∈ p :: l, r'.count end_ q = 0 := by
          intro q member
          rw [counts q (lists'.managed q member)]
          split
          · rfl
          next different => exact unused q ((List.mem_cons.mp member).resolve_left different)
        rw [freeFrom, if_pos more, freed, ok_bind]
        refine ih ?_ ?_ ?_ lists' below' unused'
        · change (p + 4096) % 4096 = 0
          omega
        · change _ ≤ p + 4096
          omega
        · change _ < p + 4096 + _
          omega
      · refine ⟨r, l, ?_, lists, fun q => (below q).trans ⟨And.left, fun manages => ?_⟩, unused⟩
        · rw [freeFrom, if_neg more]
        · have high := manages.bounds.2.1
          have stops : ¬ p + 4096 ≤ 0x88000000 := more
          exact ⟨manages, by omega⟩

/-- `kinit` returns with all managed pages on the free list and no reference counted. -/
theorem kinit_ok (inRam : end_ ≤ PHYSTOP) (mem : ByteMemory) :
    ∃ r l, kinit end_ mem = .ok r ∧ r.Lists end_ l ∧ (∀ q, q ∈ l ↔ Manages end_ q) ∧
      ∀ q ∈ l, r.count end_ q = 0 := by
  have inRam : end_ ≤ 0x88000000 := inRam
  have size : rcPages end_ = ((0x88000000 - end_) / 2 ^ 12 + 1) * 4 / 2 ^ 12 + 1 := rfl
  let start : Nat := end_ + rcPages end_ * 2 ^ 12
  have first : pgRoundUp start = (start + 4095) / 4096 * 4096 := by
    change (start + 4095) % 2 ^ 64 / 4096 * 4096 = _
    rw [Nat.mod_eq_of_lt (by omega)]
  have low : start ≤ pgRoundUp start := by omega
  have fuel : PHYSTOP / PGSIZE = 0x88000 := by decide
  have none_below : ∀ q, q ∈ ([] : List Nat) ↔ Manages end_ q ∧ q < pgRoundUp start := by
    intro q
    constructor
    · intro member
      cases member
    · rintro ⟨manages, below⟩
      obtain ⟨above, high, aligned⟩ := manages.bounds
      omega
  have loop := @freeFrom_ok end_ ⟨0, end_, mem⟩ (PHYSTOP / PGSIZE) (pgRoundUp start) []
    (by omega) (by omega) (by omega) ⟨rfl, .nil, by simp⟩ none_below (by simp)
  simpa only [kinit, freerange] using loop

end Ram

/-! ## Runs -/

/-- The allocator, and the number of references to each page that its callers hold. -/
structure PageState where
  ram : Ram
  held : Nat → Nat

/-- What the callers do. -/
inductive PageCall where
  | kalloc
  | kref (pa : Nat)
  | kderef (pa : Nat)
  | kfree (pa : Nat)
  /-- Stores, after which the memory is this one. -/
  | write (mem : ByteMemory)

namespace PageState

variable (end_ : Nat)

/-- One call. A caller that allocates a page or counts a reference holds one more, and one fewer
after a release. -/
def call (s : PageState) : PageCall → Except Fault PageState
  | .kalloc =>
      let (pa, ram) := s.ram.kalloc end_
      .ok ⟨ram, if pa = 0 then s.held else Function.update s.held pa (s.held pa + 1)⟩
  | .kref pa => .ok ⟨s.ram.kref end_ pa, Function.update s.held pa (s.held pa + 1)⟩
  | .kderef pa => do
      let ram ← s.ram.kderef end_ pa
      .ok ⟨ram, Function.update s.held pa (s.held pa - 1)⟩
  | .kfree pa => do
      let ram ← s.ram.kfree end_ pa
      .ok ⟨ram, Function.update s.held pa (s.held pa - 1)⟩
  | .write mem => .ok { s with ram := { s.ram with mem := mem } }

/-- What the callers may do: release references that they hold, use `kfree` for the only one, and
store outside the memory of the allocator and into pages that they hold. `mayRef` says for which
numbers of references to a page another one may be counted. -/
def Allowed (mayRef : Nat → Prop) (s : PageState) : PageCall → Prop
  | .kalloc => True
  | .kref pa => mayRef (s.held pa)
  | .kderef pa => 0 < s.held pa
  | .kfree pa => s.held pa = 1
  | .write mem => ∀ b, mem b ≠ s.ram.mem b →
      b < end_ ∨ PHYSTOP ≤ b ∨ ∃ pa, 0 < s.held pa ∧ pa ≤ b ∧ b < pa + PGSIZE

/-- The calls after `kinit`. -/
def system : Std.TransitionSystem PageState PageCall where
  Initial s := (∃ mem, Ram.kinit end_ mem = .ok s.ram) ∧ ∀ pa, s.held pa = 0
  Step s c s' := s.call end_ c = .ok s'

/-- What the allocator promises in a state. -/
structure Promises (mayRef : Nat → Prop) (s : PageState) : Prop where
  /-- The free list has no page twice. -/
  once : ∃ l, IsList s.ram.next 0 s.ram.freelist l ∧ l.Nodup
  /-- A managed page is free iff its count is 0. -/
  free_iff : ∀ pa, Ram.Manages end_ pa → (s.ram.Listed pa ↔ s.ram.count end_ pa = 0)
  /-- `kalloc` returns a managed page to which there is no reference. -/
  unused : ∀ pa ram, s.ram.kalloc end_ = (pa, ram) → pa ≠ 0 →
    Ram.Manages end_ pa ∧ s.held pa = 0 ∧ s.ram.count end_ pa = 0
  /-- No call panics. -/
  returns : ∀ c, s.Allowed end_ mayRef c → ∃ s', s.call end_ c = .ok s'
  /-- A page gets free exactly at the release of its last reference. -/
  freed_iff : ∀ c s', s.Allowed end_ mayRef c → s.call end_ c = .ok s' →
    ∀ pa, Ram.Manages end_ pa → ¬ s.ram.Listed pa →
      (s'.ram.Listed pa ↔ (c = .kderef pa ∨ c = .kfree pa) ∧ s.held pa = 1)

/-- The free list is the managed pages that nobody holds, and the counts are the references held. -/
structure Sound (s : PageState) (l : List Nat) : Prop where
  lists : s.ram.Lists end_ l
  free_iff : ∀ pa, pa ∈ l ↔ Ram.Manages end_ pa ∧ s.held pa = 0
  count : ∀ pa, Ram.Manages end_ pa → s.ram.count end_ pa = s.held pa
  managed : ∀ pa, 0 < s.held pa → Ram.Manages end_ pa
  fits : ∀ pa, s.held pa < 2 ^ 32

/-- References are counted for pages that are held, and as long as the counter has room. -/
def Countable (held : Nat) : Prop := 0 < held ∧ held + 1 < 2 ^ 32

namespace Sound

variable {end_} {s s' : PageState} {l : List Nat} {pa : Nat} {mayRef : Nat → Prop}

theorem initial (inRam : end_ ≤ PHYSTOP) (valid : (system end_).Initial s) :
    ∃ l, s.Sound end_ l := by
  obtain ⟨⟨mem, boots⟩, nobody⟩ := valid
  obtain ⟨r, l, boots', lists, all, unused⟩ := Ram.kinit_ok inRam mem
  obtain rfl : r = s.ram := Except.ok.inj (boots'.symm.trans boots)
  refine ⟨l, lists, fun pa => ?_, fun pa manages => ?_, fun pa some_ => ?_, fun pa => ?_⟩
  · rw [all, nobody]
    simp
  · rw [nobody, unused pa ((all pa).mpr manages)]
  · rw [nobody] at some_
    cases some_
  · rw [nobody]
    exact Nat.two_pow_pos 32

/-- What one call does: the number of references to one managed page and its count change alike, and
the free list has it from then on iff there are none. -/
theorem replace {ram : Ram} {l' : List Nat} {held : Nat} (sound : s.Sound end_ l)
    (manages : Ram.Manages end_ pa) (lists : ram.Lists end_ l')
    (counts : ∀ q, Ram.Manages end_ q → ram.count end_ q = if q = pa then held else s.ram.count end_ q)
    (fits : held < 2 ^ 32) (others : ∀ q ≠ pa, q ∈ l' ↔ q ∈ l) (free_iff : pa ∈ l' ↔ held = 0) :
    (⟨ram, Function.update s.held pa held⟩ : PageState).Sound end_ l' := by
  refine ⟨lists, fun q => ?_, fun q other => ?_, fun q some_ => ?_, fun q => ?_⟩
  · by_cases same : q = pa
    · subst same
      simp [free_iff, manages]
    · simpa [others q same, Function.update_of_ne same] using sound.free_iff q
  · show ram.count end_ q = Function.update s.held pa held q
    rw [counts q other, Function.update_apply]
    split
    · rfl
    · exact sound.count q other
  · by_cases same : q = pa
    · exact same ▸ manages
    · exact sound.managed q (by simpa [Function.update_of_ne same] using some_)
  · show Function.update s.held pa held q < 2 ^ 32
    rw [Function.update_apply]
    split
    · exact fits
    · exact sound.fits q

/-- `kalloc` takes the first free page. -/
theorem kalloc (sound : s.Sound end_ (pa :: l)) :
    ∃ ram, s.ram.kalloc end_ = (pa, ram) ∧
      (⟨ram, Function.update s.held pa (s.held pa + 1)⟩ : PageState).Sound end_ l := by
  obtain ⟨ram, returned, lists, counts⟩ := sound.lists.kalloc_cons
  obtain ⟨manages, unheld⟩ := (sound.free_iff pa).mp (List.mem_cons_self ..)
  have apart := (List.nodup_cons.mp sound.lists.list.nodup).1
  refine ⟨ram, returned, ?_⟩
  rw [unheld]
  exact sound.replace manages lists counts (by omega) (fun q different => by simp [different])
    (by simp [apart])

/-- Another number of references to a page that stays in use. -/
theorem setCount {held : Nat} (sound : s.Sound end_ l) (before : 0 < s.held pa) (after : 0 < held)
    (fits : held < 2 ^ 32) :
    (⟨s.ram.setCount end_ pa held, Function.update s.held pa held⟩ : PageState).Sound end_ l := by
  have manages := sound.managed pa before
  have inUse : pa ∉ l := fun member => before.ne' ((sound.free_iff pa).mp member).2
  exact sound.replace manages (sound.lists.setCount manages held)
    (fun q other => Ram.count_setCount sound.lists.table manages other fits) fits
    (fun q _ => Iff.rfl) (iff_of_false inUse after.ne')

/-- `kfree` of the page with one reference, whose count may have been set before. -/
theorem kfree {r : Ram} (sound : s.Sound end_ l) (only : s.held pa = 1) (lists : r.Lists end_ l)
    (counts : ∀ q, Ram.Manages end_ q → q ≠ pa → r.count end_ q = s.ram.count end_ q) :
    ∃ ram, r.kfree end_ pa = .ok ram ∧
      (⟨ram, Function.update s.held pa (s.held pa - 1)⟩ : PageState).Sound end_ (pa :: l) := by
  have manages := sound.managed pa (by omega)
  have inUse : pa ∉ l := fun member => by
    have free := ((sound.free_iff pa).mp member).2
    omega
  obtain ⟨ram, freed, lists', counts'⟩ := lists.kfree manages inUse
  refine ⟨ram, freed, ?_⟩
  rw [only]
  refine sound.replace manages lists' (fun q other => ?_) (by omega)
    (fun q different => by simp [different]) (by simp)
  rw [counts' q other]
  split
  · rfl
  next different => exact counts q other different

/-- `kref` of a page in use. -/
theorem kref (sound : s.Sound end_ l) (countable : Countable (s.held pa)) :
    (⟨s.ram.kref end_ pa, Function.update s.held pa (s.held pa + 1)⟩ : PageState).Sound end_ l := by
  have counted := sound.count pa (sound.managed pa countable.1)
  rw [Ram.kref, counted, Nat.mod_eq_of_lt countable.2]
  exact sound.setCount countable.1 (Nat.succ_pos _) countable.2

/-- `kderef` frees the page at the last reference, and only then. -/
theorem kderef (sound : s.Sound end_ l) (some_ : 0 < s.held pa) :
    ∃ ram, s.ram.kderef end_ pa = .ok ram ∧
      (⟨ram, Function.update s.held pa (s.held pa - 1)⟩ : PageState).Sound end_
        (if s.held pa = 1 then pa :: l else l) := by
  have manages := sound.managed pa some_
  have fits := sound.fits pa
  have counted := sound.count pa manages
  have dropped : (s.ram.count end_ pa + 2 ^ 32 - 1) % 2 ^ 32 = s.held pa - 1 := by
    rw [counted]
    omega
  have read : (s.ram.setCount end_ pa (s.held pa - 1)).count end_ pa = s.held pa - 1 := by
    rw [Ram.count_setCount sound.lists.table manages manages (by omega), if_pos rfl]
  rw [Ram.kderef, dropped]
  simp only [read]
  split
  next last =>
    have only : s.held pa = 1 := by omega
    rw [if_pos only]
    refine sound.kfree only (sound.lists.setCount manages _) fun q other different => ?_
    rw [Ram.count_setCount sound.lists.table manages other (by omega), if_neg different]
  next more =>
    rw [if_neg (by omega)]
    exact ⟨_, rfl, sound.setCount some_ (by omega) (by omega)⟩

/-- Stores outside the memory of the allocator. -/
theorem write {mem : ByteMemory} (sound : s.Sound end_ l)
    (allowed : s.Allowed end_ mayRef (.write mem)) :
    ({ s with ram := { s.ram with mem := mem } } : PageState).Sound end_ l := by
  have kept : ∀ b, end_ ≤ b → b < PHYSTOP →
      (∀ pa, 0 < s.held pa → b < pa ∨ pa + PGSIZE ≤ b) → mem b = s.ram.mem b := by
    intro b low high outside
    by_contra different
    obtain below | above | ⟨pa, some_, first, last⟩ := allowed b different
    · omega
    · omega
    · have := outside pa some_
      omega
  have counts : ∀ q, Ram.Manages end_ q →
      ({ s.ram with mem := mem } : Ram).count end_ q = s.ram.count end_ q := by
    intro q other
    obtain ⟨address, inTable⟩ := Ram.entry_bounds sound.lists.table other
    refine ByteMemory.load_congr fun b first last => ?_
    have first : s.ram.entry end_ q ≤ b := first
    have last : b < s.ram.entry end_ q + 4 := last
    have below := other.bounds
    have inTable : s.ram.entry end_ q + 4 ≤ end_ + Ram.rcPages end_ * 4096 := inTable
    refine kept b (by omega) (show b < 0x88000000 by omega) fun pa some_ => .inl ?_
    have page := (sound.managed pa some_).bounds
    omega
  refine ⟨⟨sound.lists.table, sound.lists.list.congr fun q member => ?_, sound.lists.managed⟩,
    sound.free_iff, fun q other => (counts q other).trans (sound.count q other), sound.managed,
    sound.fits⟩
  obtain ⟨other, free⟩ := (sound.free_iff q).mp member
  refine ByteMemory.load_congr fun b first last => ?_
  have page := other.bounds
  refine kept b (by omega) (show b < 0x88000000 by omega) fun pa some_ => ?_
  have different : q ≠ pa := by
    rintro rfl
    omega
  have apart := Ram.pages_apart (sound.managed pa some_) other different
  show b < pa ∨ pa + 4096 ≤ b
  omega

/-- Every allowed call returns, keeps the invariant, and takes a page out of use only with its last
reference. -/
theorem step (sound : s.Sound end_ l) (c : PageCall) (allowed : s.Allowed end_ Countable c) :
    ∃ s' l', s.call end_ c = .ok s' ∧ s'.Sound end_ l' ∧
      ∀ pa, s.held pa ≠ 0 → (s'.held pa = 0 ↔ (c = .kderef pa ∨ c = .kfree pa) ∧ s.held pa = 1) := by
  have updated : ∀ {p q held : Nat}, Function.update s.held p held q = 0 ↔
      (q = p ∧ held = 0) ∨ (q ≠ p ∧ s.held q = 0) := by
    intro p q held
    rw [Function.update_apply]
    split <;> simp_all
  cases c with
  | kalloc =>
      cases l with
      | nil =>
          have none_ := sound.lists.kalloc_nil
          refine ⟨s, [], ?_, sound, by simp⟩
          rw [call, none_]
          rfl
      | cons p l =>
          obtain ⟨ram, returned, sound'⟩ := sound.kalloc
          have real := ((sound.free_iff p).mp (List.mem_cons_self ..)).1.ne_zero
          refine ⟨_, l, ?_, sound', fun q used => ?_⟩
          · rw [call, returned]
            show (Except.ok ⟨ram, if p = 0 then s.held else Function.update s.held p (s.held p + 1)⟩ :
              Except Fault PageState) = _
            rw [if_neg real]
          · simp [updated, used]
  | kref p =>
      refine ⟨_, l, rfl, sound.kref allowed, fun q used => ?_⟩
      simp [updated, used]
  | kderef p =>
      obtain ⟨ram, returned, sound'⟩ := sound.kderef allowed
      refine ⟨_, _, ?_, sound', fun q used => ?_⟩
      · rw [call, returned]
        rfl
      · have some_ : 0 < s.held p := allowed
        simp only [updated, used, and_false, or_false, PageCall.kderef.injEq, reduceCtorEq]
        constructor
        · rintro ⟨rfl, last⟩
          exact ⟨rfl, by omega⟩
        · rintro ⟨rfl, only⟩
          exact ⟨rfl, by omega⟩
  | kfree p =>
      have only : s.held p = 1 := allowed
      obtain ⟨ram, returned, sound'⟩ := sound.kfree only sound.lists fun _ _ _ => rfl
      refine ⟨_, _, ?_, sound', fun q used => ?_⟩
      · rw [call, returned]
        rfl
      · simp only [updated, used, and_false, or_false, false_or, PageCall.kfree.injEq, reduceCtorEq]
        constructor
        · rintro ⟨rfl, last⟩
          exact ⟨rfl, only⟩
        · rintro ⟨rfl, _⟩
          exact ⟨rfl, by omega⟩
  | write mem =>
      refine ⟨_, l, rfl, sound.write allowed, fun q used => ?_⟩
      simp [used]

/-- The invariant gives the promises. -/
theorem promises (sound : s.Sound end_ l) : s.Promises end_ Countable where
  once := ⟨l, sound.lists.list, sound.lists.list.nodup⟩
  free_iff := by
    intro pa manages
    rw [sound.lists.listed_iff, sound.free_iff, sound.count pa manages, and_iff_right manages]
  unused := by
    intro pa ram returned real
    cases l with
    | nil =>
        rw [sound.lists.kalloc_nil] at returned
        exact absurd (congrArg Prod.fst returned).symm real
    | cons p l =>
        obtain ⟨ram', returned', _⟩ := sound.kalloc
        obtain rfl : p = pa := congrArg Prod.fst (returned'.symm.trans returned)
        obtain ⟨manages, unheld⟩ := (sound.free_iff p).mp (List.mem_cons_self ..)
        exact ⟨manages, unheld, (sound.count p manages).trans unheld⟩
  returns := by
    intro c allowed
    obtain ⟨s', _, ran, _⟩ := sound.step c allowed
    exact ⟨s', ran⟩
  freed_iff := by
    intro c s' allowed ran pa manages inUse
    obtain ⟨s'', l', ran', sound', frees⟩ := sound.step c allowed
    obtain rfl : s'' = s' := Except.ok.inj (ran'.symm.trans ran)
    rw [sound.lists.listed_iff, sound.free_iff] at inUse
    rw [sound'.lists.listed_iff, sound'.free_iff, and_iff_right manages]
    exact frees pa fun unheld => inUse ⟨manages, unheld⟩

end Sound

variable {end_ : Nat}

/-- The invariant holds after every run. -/
theorem sound_of_reachable (inRam : end_ ≤ PHYSTOP) {s : PageState}
    (run : (system end_).ReachableUnder (Allowed end_ Countable) s) : ∃ l, s.Sound end_ l := by
  refine run.invariant ⟨fun valid => Sound.initial inRam valid, ?_⟩
  intro s c s' sound allowed ran
  obtain ⟨l, sound⟩ := sound
  obtain ⟨s'', l', ran', sound', _⟩ := sound.step c allowed
  obtain rfl : s'' = s' := Except.ok.inj (ran'.symm.trans ran)
  exact ⟨l', sound'⟩

/-- The allocator keeps its promises over every run after `kinit`, wherever the kernel ends, as long
as references are counted for pages in use and fewer than 2³² to each. The entries of managed pages
are distinct, and the table of counts lies below all managed pages. -/
theorem pages_counted (inRam : end_ ≤ PHYSTOP) :
    (∀ mem, ∃ r, Ram.kinit end_ mem = .ok r) ∧
    (∀ s, (system end_).ReachableUnder (Allowed end_ Countable) s → s.Promises end_ Countable) ∧
    (∀ pa q, Ram.Manages end_ pa → Ram.Manages end_ q → Ram.idx end_ pa = Ram.idx end_ q → pa = q) ∧
    ∀ s, (system end_).ReachableUnder (Allowed end_ Countable) s → ∀ pa q, Ram.Manages end_ pa →
      Ram.Manages end_ q → s.ram.entry end_ pa = s.ram.refCount + 4 * Ram.idx end_ pa ∧
        s.ram.entry end_ pa + 4 ≤ q := by
  refine ⟨fun mem => ?_, fun s run => ?_, fun pa q => Ram.idx_injective, fun s run pa q page other => ?_⟩
  · obtain ⟨r, _, boots, _⟩ := Ram.kinit_ok inRam mem
    exact ⟨r, boots⟩
  · obtain ⟨l, sound⟩ := sound_of_reachable inRam run
    exact sound.promises
  · obtain ⟨l, sound⟩ := sound_of_reachable inRam run
    obtain ⟨address, inTable⟩ := Ram.entry_bounds sound.lists.table page
    exact ⟨by rw [address, sound.lists.table], le_trans inTable other.1⟩

section Many

variable {page : Nat} (inRam : end_ ≤ PHYSTOP) (manages : Ram.Manages end_ page)
include inRam manages

/-- Some page is free after `kinit`. -/
theorem boots : ∃ s p l, (system end_).Initial s ∧ s.Sound end_ (p :: l) := by
  obtain ⟨r, l, boots, lists, all, unused⟩ := Ram.kinit_ok inRam fun _ => 0
  have valid : (system end_).Initial ⟨r, fun _ => 0⟩ := ⟨⟨_, boots⟩, fun _ => rfl⟩
  obtain ⟨l', sound⟩ := Sound.initial inRam valid
  cases l' with
  | nil => exact absurd ((sound.free_iff page).mpr ⟨manages, rfl⟩) (by simp)
  | cons p l' => exact ⟨_, p, l', valid, sound⟩

/-- Any number of references to one page that the counter has room for. -/
theorem held_many : ∃ p, ∀ n, n + 1 < 2 ^ 32 → ∃ s l,
    (system end_).ReachableUnder (Allowed end_ Countable) s ∧ s.Sound end_ l ∧ s.held p = n + 1 := by
  obtain ⟨s, p, l, valid, sound⟩ := boots inRam manages
  refine ⟨p, fun n => ?_⟩
  induction n with
  | zero =>
      intro _
      obtain ⟨ram, returned, sound'⟩ := sound.kalloc
      obtain ⟨manages', unheld⟩ := (sound.free_iff p).mp (List.mem_cons_self ..)
      have allowed : s.Allowed end_ Countable .kalloc := trivial
      refine ⟨_, l, .step (.initial valid) allowed ?_, sound', by simp [unheld]⟩
      show s.call end_ .kalloc = _
      rw [call, returned]
      show (Except.ok ⟨ram, if p = 0 then s.held else Function.update s.held p (s.held p + 1)⟩ :
        Except Fault PageState) = _
      rw [if_neg manages'.ne_zero]
  | succ n ih =>
      intro fits
      obtain ⟨s, l, run, sound, held⟩ := ih (by omega)
      have countable : Countable (s.held p) := ⟨by omega, by omega⟩
      have allowed : s.Allowed end_ Countable (.kref p) := countable
      exact ⟨_, l, .step run allowed rfl, sound.kref countable, by simp [held]⟩

end Many

/-- The promises where a page has three references, for a kernel that ends at an address that is not
aligned. -/
theorem pages_counted_three : ∃ s p,
    (system 0x80024F38).ReachableUnder (Allowed 0x80024F38 Countable) s ∧ s.held p = 3 ∧
      s.Promises 0x80024F38 Countable := by
  have manages : Ram.Manages 0x80024F38 0x87FFF000 := ⟨by decide, by decide, by decide⟩
  obtain ⟨p, many⟩ := held_many (by decide) manages
  obtain ⟨s, l, run, sound, held⟩ := many 2 (by omega)
  exact ⟨s, p, run, held, (pages_counted (by decide)).2.1 s run⟩

section Failures

variable {page : Nat} (inRam : end_ ≤ PHYSTOP) (manages : Ram.Manages end_ page)
include inRam manages

/-- With 2³² references to a page its count is 0 while it is in use. -/
theorem overflows : ∃ s, (system end_).ReachableUnder (Allowed end_ fun held => 0 < held) s ∧
    ¬ s.Promises end_ fun held => 0 < held := by
  obtain ⟨p, many⟩ := held_many inRam manages
  obtain ⟨s, l, run, sound, held⟩ := many (2 ^ 32 - 2) (by omega)
  have some_ : 0 < s.held p := by omega
  have page := sound.managed p some_
  have inUse : p ∉ l := fun member => some_.ne' ((sound.free_iff p).mp member).2
  have allowed : s.Allowed end_ (fun held => 0 < held) (.kref p) := some_
  refine ⟨_, .step (run.mono ?_) allowed rfl, fun promises => ?_⟩
  · intro s c allowed
    cases c with
    | kref pa => exact allowed.1
    | _ => exact allowed
  · have lists : (s.ram.kref end_ p).Lists end_ l := sound.lists.setCount page _
    have wrapped : (s.ram.count end_ p + 1) % 2 ^ 32 = 0 := by
      have counted := sound.count p page
      omega
    have zero : (s.ram.kref end_ p).count end_ p = 0 := by
      rw [Ram.kref, wrapped, Ram.count_setCount sound.lists.table page page (by omega), if_pos rfl]
    exact inUse (lists.listed_iff.mp ((promises.free_iff p page).mpr zero))

/-- A reference to a free page is counted while the page stays free. -/
theorem counts_free : ∃ s,
    (system end_).ReachableUnder (Allowed end_ fun held => held + 1 < 2 ^ 32) s ∧
      ¬ s.Promises end_ fun held => held + 1 < 2 ^ 32 := by
  obtain ⟨s, p, l, valid, sound⟩ := boots inRam manages
  obtain ⟨page, unheld⟩ := (sound.free_iff p).mp (List.mem_cons_self ..)
  have allowed : s.Allowed end_ (fun held => held + 1 < 2 ^ 32) (.kref p) := by
    show s.held p + 1 < 2 ^ 32
    omega
  refine ⟨_, .step (.initial valid) allowed rfl, fun promises => ?_⟩
  have lists : (s.ram.kref end_ p).Lists end_ (p :: l) := sound.lists.setCount page _
  have counted : (s.ram.count end_ p + 1) % 2 ^ 32 = 1 := by
    have unused := sound.count p page
    omega
  have one : (s.ram.kref end_ p).count end_ p = 1 := by
    rw [Ram.kref, counted, Ram.count_setCount sound.lists.table page page (by omega), if_pos rfl]
  have zero : (s.ram.kref end_ p).count end_ p = 0 :=
    (promises.free_iff p page).mp (lists.listed_iff.mpr (List.mem_cons_self ..))
  omega

end Failures

/-- Without either condition on `kref` the promises are broken: by 2³² references to a page, and by
a reference to a free page. -/
theorem pages_miscounted :
    (∃ s, (system 0x80024F38).ReachableUnder (Allowed 0x80024F38 fun held => 0 < held) s ∧
      ¬ s.Promises 0x80024F38 fun held => 0 < held) ∧
    ∃ s, (system 0x80024F38).ReachableUnder (Allowed 0x80024F38 fun held => held + 1 < 2 ^ 32) s ∧
      ¬ s.Promises 0x80024F38 fun held => held + 1 < 2 ^ 32 := by
  have manages : Ram.Manages 0x80024F38 0x87FFF000 := ⟨by decide, by decide, by decide⟩
  exact ⟨overflows (by decide) manages, counts_free (by decide) manages⟩

end PageState

end Riscv2os.Xv7
