import Riscv2os.MiniRiscvOs.Alloc

/-!
# The pages that the allocator looks at

Where `page_init` puts the descriptors and the pool, which descriptors `malloc` and `free` touch, and what
they do with sizes and pointers that are not those of a session without mistakes.
-/

namespace Riscv2os.MiniRiscvOs

open Riscv2os.Std

namespace Heap

variable {h h' : Heap} {i j npages size p rounds : Nat}

/-- `page_init` lays out the heap: the descriptors end before the pool, and the pool with the memory. -/
theorem pageInit_layout {heapStart heapSize : Nat} {memory : Nat → UInt8}
    (layout : HeapLayout heapStart heapSize) (init : h = pageInit heapStart heapSize memory) :
    h.numPages = heapSize / PAGE_SIZE - 2048 ∧ heapStart + h.numPages ≤ h.allocStart ∧
      h.allocEnd = h.allocStart + PAGE_SIZE * h.numPages ∧ h.allocEnd ≤ heapStart + heapSize := by
  obtain ⟨inMemory, toEnd, room⟩ := layout
  have end_ := pageInit_end init
  have pages : h.numPages = heapSize / PAGE_SIZE - 2048 := by
    rw [init, pageInit]
    simp only [PAGE_SIZE] at room ⊢
    omega
  have start : heapStart + 2048 * PAGE_SIZE ≤ h.allocStart ∧
      h.allocStart + PAGE_SIZE * (heapSize / PAGE_SIZE - 2048) = heapStart + heapSize := by
    rw [init, pageInit, alignPage]
    simp only [PAGE_SIZE] at room ⊢
    omega
  rw [pages] at end_ ⊢
  refine ⟨rfl, ?_, ?_, ?_⟩
  all_goals
    simp only [PAGE_SIZE] at room start end_ ⊢
    omega

/-- A heap behind a `bss` that ends 3 bytes into a page. -/
theorem pageInit_layout_unaligned : ∃ h : Heap, h = pageInit 0x80010003 0x07FEFFFD (fun _ => 0) ∧
    h.numPages = 521983 ∧ 0x80010003 + h.numPages ≤ h.allocStart ∧
      h.allocEnd = h.allocStart + PAGE_SIZE * h.numPages ∧ h.allocEnd ≤ 0x80010003 + 0x07FEFFFD := by
  have layout : HeapLayout 0x80010003 0x07FEFFFD := ⟨by decide, by decide, by decide⟩
  obtain ⟨pages, before, whole, inside⟩ :=
    pageInit_layout layout (rfl : pageInit 0x80010003 0x07FEFFFD (fun _ => 0) = _)
  exact ⟨_, rfl, pages.trans (by norm_num [PAGE_SIZE]), before, whole, inside⟩

/-- The inner loop of `malloc` from page `j` on, with the descriptors that it reads. -/
def scan (h : Heap) : Nat → Nat → Bool × List Nat
  | 0, _ => (true, [])
  | left + 1, j =>
      if isFree (h.flags j) then
        let rest := scan h left (j + 1)
        (rest.1, j :: rest.2)
      else (false, [j])

/-- The outer loop of `malloc` from page `i` on, with the descriptors that it reads. -/
def search (h : Heap) (npages : Nat) : Nat → Nat → Option Nat × List Nat
  | 0, _ => (none, [])
  | rounds + 1, i =>
      let next := search h npages rounds (i + 1)
      if isFree (h.flags i) then
        let run := h.scan npages i
        if run.1 then (some i, i :: run.2) else (next.1, i :: run.2 ++ next.2)
      else (next.1, [i] ++ next.2)

/-- `malloc` with the descriptors that it reads and writes. -/
def mallocTouched (h : Heap) (size : Nat) : (Option Nat × Heap) × List Nat :=
  let npages := pageNum size
  let found := h.search npages ((h.numPages + 2 ^ 32 - npages) % 2 ^ 32) 0
  (h.place npages found.1, found.2 ++ match found.1 with
    | some i => List.range' i npages ++ [i + npages - 1]
    | none => [])

theorem search_succ (npages rounds i : Nat) : h.search npages (rounds + 1) i =
    if isFree (h.flags i) then
      if (h.scan npages i).1 then (some i, i :: (h.scan npages i).2)
      else ((h.search npages rounds (i + 1)).1, i :: (h.scan npages i).2 ++ (h.search npages rounds (i + 1)).2)
    else ((h.search npages rounds (i + 1)).1, [i] ++ (h.search npages rounds (i + 1)).2) := rfl

theorem scan_fst (left j : Nat) : (h.scan left j).1 = h.allFree j left := by
  induction left generalizing j with
  | zero => rfl
  | succ left ih =>
      rw [scan, allFree, List.range'_succ, List.all_cons]
      split
      · next free => rw [free, Bool.true_and]; exact ih (j + 1)
      · next taken => rw [Bool.not_eq_true] at taken; rw [taken, Bool.false_and]

theorem scan_below (left j : Nat) : ∀ page ∈ (h.scan left j).2, page < j + left := by
  induction left generalizing j with
  | zero => simp [scan]
  | succ left ih =>
      rw [scan]
      split
      · intro page read
        obtain rfl | read := List.mem_cons.mp read
        · omega
        · have below := ih (j + 1) page read
          omega
      · intro page read
        obtain rfl := List.mem_singleton.mp read
        omega

/-- The inner loop reads all pages of a run. -/
theorem mem_scan {left : Nat} (free : h.allFree j left = true) {page : Nat} (low : j ≤ page)
    (high : page < j + left) : page ∈ (h.scan left j).2 := by
  induction left generalizing j with
  | zero => omega
  | succ left ih =>
      have here := allFree_iff.mp free j le_rfl (by omega)
      rw [scan, if_pos here, List.mem_cons]
      by_cases first : page = j
      · exact .inl first
      · refine .inr (ih (allFree_iff.mpr fun later lower upper => ?_) (by omega) (by omega))
        exact allFree_iff.mp free later (by omega) (by omega)

/-- The outer loop ends at the first run, or it reads every page that it could begin at. -/
inductive Searched (h : Heap) (npages rounds i : Nat) : Option Nat × List Nat → Prop where
  | found {j : Nat} {read : List Nat} (low : i ≤ j) (high : j < i + rounds) (free : h.allFree j npages = true)
      (first : ∀ k, i ≤ k → k < j → h.allFree k npages = false)
      (all : ∀ page, j ≤ page → page < j + npages → page ∈ read) : Searched h npages rounds i (some j, read)
  | null {read : List Nat} (absent : ∀ k, i ≤ k → k < i + rounds → h.allFree k npages = false)
      (all : ∀ k, i ≤ k → k < i + rounds → k ∈ read) : Searched h npages rounds i (none, read)

/-- A page that begins no run is passed. -/
theorem Searched.cons {result : Option Nat × List Nat} {before : List Nat}
    (searched : h.Searched npages rounds (i + 1) result) (not : h.allFree i npages = false)
    (here : i ∈ before) : h.Searched npages (rounds + 1) i (result.1, before ++ result.2) := by
  cases searched with
  | found low high free first all =>
      refine .found (by omega) (by omega) free (fun k lower upper => ?_) fun page lower upper =>
        List.mem_append_right _ (all page lower upper)
      by_cases this : k = i
      · rwa [this]
      · exact first k (by omega) upper
  | null absent all =>
      refine .null (fun k lower upper => ?_) fun k lower upper => ?_
      · by_cases this : k = i
        · rwa [this]
        · exact absent k (by omega) (by omega)
      · by_cases this : k = i
        · exact List.mem_append_left _ (this ▸ here)
        · exact List.mem_append_right _ (all k (by omega) (by omega))

theorem search_searched (positive : 0 < npages) (rounds i : Nat) :
    h.Searched npages rounds i (h.search npages rounds i) := by
  induction rounds generalizing i with
  | zero => exact .null (fun k low high => absurd high (not_lt.mpr low)) fun k low high =>
      absurd high (not_lt.mpr low)
  | succ rounds ih =>
      rw [search_succ]
      split
      · split
        · next free run =>
          rw [scan_fst] at run
          exact .found le_rfl (by omega) run (fun k low high => by omega) fun page low high =>
            List.mem_cons_of_mem _ (mem_scan run low high)
        · next run =>
          rw [scan_fst, Bool.not_eq_true] at run
          exact (ih (i + 1)).cons run List.mem_cons_self
      · next taken =>
        refine (ih (i + 1)).cons ?_ List.mem_cons_self
        rw [Bool.eq_false_iff]
        exact fun free => taken (allFree_iff.mp free i le_rfl (by omega))

theorem search_below (positive : 0 < npages) (rounds i : Nat) :
    ∀ page ∈ (h.search npages rounds i).2, page + 1 < i + rounds + npages := by
  induction rounds generalizing i with
  | zero => simp [search]
  | succ rounds ih =>
      have here : ∀ page ∈ (h.scan npages i).2, page + 1 < i + (rounds + 1) + npages := fun page read => by
        have below := h.scan_below npages i page read
        omega
      have later : ∀ page ∈ (h.search npages rounds (i + 1)).2, page + 1 < i + (rounds + 1) + npages :=
        fun page read => by
          have below := ih (i + 1) page read
          omega
      rw [search_succ]
      split
      · split
        · intro page read
          obtain rfl | read := List.mem_cons.mp read
          · omega
          · exact here page read
        · intro page read
          rw [List.mem_append, List.mem_cons] at read
          obtain (rfl | read) | read := read
          · omega
          · exact here page read
          · exact later page read
      · intro page read
        obtain rfl | read := List.mem_cons.mp read
        · omega
        · exact later page read

theorem mallocTouched_eq {result : Option Nat × List Nat}
    (ran : h.search (pageNum size) ((h.numPages + 2 ^ 32 - pageNum size) % 2 ^ 32) 0 = result) :
    h.mallocTouched size = (h.place (pageNum size) result.1, result.2 ++ match result.1 with
      | some i => List.range' i (pageNum size) ++ [i + pageNum size - 1]
      | none => []) := by
  subst ran
  rfl

/-- The pages from `i` on are a run of free pages of the pool. -/
def FreeRun (h : Heap) (npages i : Nat) : Prop :=
  i + npages ≤ h.numPages ∧ ∀ page, i ≤ page → page < i + npages → isFree (h.flags page) = true

/-- What `malloc` with its descriptors is a model of. -/
theorem mallocTouched_fst (h : Heap) (size : Nat) : (h.mallocTouched size).1 = h.malloc size := by
  have same : ∀ rounds i, (h.search (pageNum size) rounds i).1 =
      (List.range' i rounds).find? fun i => isFree (h.flags i) && h.allFree i (pageNum size) := by
    intro rounds
    induction rounds with
    | zero => exact fun i => rfl
    | succ rounds ih =>
        intro i
        rw [List.range'_succ, List.find?_cons, search_succ, scan_fst]
        split
        · next free =>
          rw [free, Bool.true_and]
          split
          · next run => rw [run]
          · next run =>
            rw [Bool.not_eq_true] at run
            rw [run]
            exact ih (i + 1)
        · next taken =>
          rw [Bool.not_eq_true] at taken
          rw [taken, Bool.false_and]
          exact ih (i + 1)
  rw [malloc, firstFit, List.range_eq_range', ← same]
  rfl

/-- What a complete first fit does: it stays inside the descriptors, takes the first run of free pages, and
without one changes nothing. -/
structure FirstFit (h : Heap) (size : Nat) : Prop where
  inside : ∀ page ∈ (h.mallocTouched size).2, page < h.numPages
  found : ∀ i, h.FreeRun (pageNum size) i → (∀ j < i, ¬ h.FreeRun (pageNum size) j) →
    (h.mallocTouched size).1 = (some (h.allocStart + i * PAGE_SIZE), h.take i (pageNum size))
  null : (∀ i, ¬ h.FreeRun (pageNum size) i) → (h.mallocTouched size).1 = (none, h)

/-- `malloc` is a complete first fit if it is not for more pages than there are, and the first run of free pages
does not end with the last page. -/
theorem malloc_firstFit_iff (fits : h.allocStart + PAGE_SIZE * h.numPages < 2 ^ 32) (small : size < 2 ^ 32) :
    h.FirstFit size ↔ pageNum size ≤ h.numPages ∧
      ∀ i, h.FreeRun (pageNum size) i → (∀ j < i, ¬ h.FreeRun (pageNum size) j) →
        i + pageNum size ≠ h.numPages := by
  have positive : 0 < pageNum size := Nat.succ_pos _
  have few : pageNum size < 2 ^ 32 := by
    simp only [pageNum, PAGE_SIZE]
    omega
  have pages : h.numPages < 2 ^ 32 := by
    simp only [PAGE_SIZE] at fits
    omega
  have searched := h.search_searched positive ((h.numPages + 2 ^ 32 - pageNum size) % 2 ^ 32) 0
  have below := h.search_below positive ((h.numPages + 2 ^ 32 - pageNum size) % 2 ^ 32) 0
  generalize ran : h.search (pageNum size) ((h.numPages + 2 ^ 32 - pageNum size) % 2 ^ 32) 0 = result
    at searched below
  by_cases more : h.numPages < pageNum size
  · -- the bound of the outer loop wraps, and `malloc` reads behind the descriptors
    have rounds : (h.numPages + 2 ^ 32 - pageNum size) % 2 ^ 32 = h.numPages + 2 ^ 32 - pageNum size := by
      omega
    refine iff_of_false (fun complete => ?_) fun both => absurd both.1 (not_le.mpr more)
    obtain ⟨page, read, behind⟩ : ∃ page ∈ result.2, h.numPages ≤ page := by
      cases searched with
      | @found j read low high free first all =>
          exact ⟨j + pageNum size - 1, all _ (by omega) (by omega), by omega⟩
      | null absent all => exact ⟨h.numPages, all _ (Nat.zero_le _) (by omega), le_rfl⟩
    have inside := complete.inside page (by
      rw [mallocTouched_eq ran]
      exact List.mem_append_left _ read)
    omega
  have rounds : (h.numPages + 2 ^ 32 - pageNum size) % 2 ^ 32 = h.numPages - pageNum size := by omega
  rw [rounds] at searched below
  cases searched with
  | @found j read low high free first all =>
      have run : h.FreeRun (pageNum size) j := ⟨by omega, allFree_iff.mp free⟩
      have only : ∀ i, h.FreeRun (pageNum size) i → (∀ k < i, ¬ h.FreeRun (pageNum size) k) → i = j := by
        intro i run' first'
        rcases Nat.lt_trichotomy i j with less | same | less
        · have taken := first i (Nat.zero_le _) less
          rw [allFree_iff.mpr run'.2] at taken
          cases taken
        · exact same
        · exact absurd run (first' j less)
      refine iff_of_true ⟨?_, fun i run' first' => ?_, fun absent => absurd run (absent j)⟩
        ⟨not_lt.mp more, fun i run' first' => ?_⟩
      · intro page touched
        rw [mallocTouched_eq ran] at touched
        simp only [List.mem_append, List.mem_range'_1, List.mem_singleton] at touched
        rcases touched with read | (written | last)
        · have bound := below page read
          omega
        · omega
        · omega
      · rw [mallocTouched_eq ran, only i run' first']
        rfl
      · rw [only i run' first']
        omega
  | null absent all =>
      have early : ∀ i < h.numPages - pageNum size, ¬ h.FreeRun (pageNum size) i := fun i less run => by
        have taken := absent i (Nat.zero_le _) (by omega)
        rw [allFree_iff.mpr run.2] at taken
        cases taken
      by_cases last : h.FreeRun (pageNum size) (h.numPages - pageNum size)
      · refine iff_of_false (fun complete => ?_) fun both => both.2 _ last early (by omega)
        have found := complete.found _ last early
        rw [mallocTouched_eq ran] at found
        cases found
      · have none : ∀ i, ¬ h.FreeRun (pageNum size) i := fun i run => by
          have inside := run.1
          rcases Nat.lt_or_ge i (h.numPages - pageNum size) with less | more
          · exact early i less run
          · exact last (by rwa [show h.numPages - pageNum size = i by omega])
        refine iff_of_true ⟨?_, fun i run => absurd run (none i), fun _ => by rw [mallocTouched_eq ran]; rfl⟩
          ⟨not_lt.mp more, fun i run => absurd run (none i)⟩
        intro page touched
        rw [mallocTouched_eq ran] at touched
        simp only [List.append_nil] at touched
        have bound := below page touched
        omega

theorem eightPages_free : ∀ page < 8, isFree (eightPages.flags page) = true := by decide

/-- Four of eight free pages. -/
theorem malloc_firstFit_four : eightPages.FirstFit 1024 := by
  refine (malloc_firstFit_iff (by decide) (by decide)).mpr ⟨by decide, fun i run first => ?_⟩
  rcases Nat.eq_zero_or_pos i with rfl | positive
  · decide
  · have whole : eightPages.FreeRun (pageNum 1024) 0 :=
      ⟨by decide, fun page _ less => eightPages_free page (less.trans (by decide))⟩
    exact absurd whole (first 0 positive)

/-- There are eight free pages, and `malloc` finds no eight. -/
theorem malloc_notFirstFit : ∃ h : Heap, h = eightPages ∧ h.numPages = 8 ∧ pageNum 2048 = 8 ∧
    h.FreeRun 8 0 ∧ (h.mallocTouched 2048).1.1 = none ∧ ¬ h.FirstFit 2048 := by
  have whole : eightPages.FreeRun 8 0 := ⟨by decide, fun page _ less => eightPages_free page (by omega)⟩
  have none : (eightPages.mallocTouched 2048).1.1 = none := by decide
  refine ⟨eightPages, rfl, by decide, by decide, whole, none, fun complete => ?_⟩
  have found := complete.found 0 whole fun j less => absurd less (Nat.not_lt_zero j)
  rw [found] at none
  cases none

end Heap

/-- The calls with any argument. -/
inductive PoolCall where
  | malloc (size : Nat)
  | free (p : Nat)

namespace HeapSession

variable {s s' : HeapSession} {b : PageBlock} {p page : Nat}

/-- The live blocks after a `free`. -/
def released (s : HeapSession) (p : Nat) : List PageBlock :=
  match s.live.find? fun b => b.ptr s.heap = p with
  | some b => s.live.erase b
  | none => s.live

/-- A call of `malloc` or of `free` for any pointer. There is no state behind a `free` that runs over the
descriptors. -/
inductive AnyStep : HeapSession → PoolCall → HeapSession → Prop where
  | found {s : HeapSession} {size p : Nat} {h : Heap} (ran : s.heap.malloc size = (some p, h)) :
      AnyStep s (.malloc size) ⟨h, ⟨(p - s.heap.allocStart) / PAGE_SIZE, pageNum size⟩ :: s.live⟩
  | null {s : HeapSession} {size : Nat} {h : Heap} (ran : s.heap.malloc size = (none, h)) :
      AnyStep s (.malloc size) ⟨h, s.live⟩
  | free {s : HeapSession} {p : Nat} {h : Heap} (ran : s.heap.free p = some h) :
      AnyStep s (.free p) ⟨h, s.released p⟩

/-- The sessions after `page_init`, with any calls. -/
def poolSystem : TransitionSystem HeapSession PoolCall where
  Initial := heapSystem.Initial
  Step := AnyStep

/-- A pointer that `free` can take: it is outside the range that `free` looks at, or the start of a live block,
or in a page of the pool that no live block has. -/
def Freeable (s : HeapSession) (p : Nat) : Prop :=
  p = 0 ∨ s.heap.allocEnd ≤ p ∨ s.heap.allocStart ≤ p ∧
    ((∃ b ∈ s.live, b.ptr s.heap = p) ∨ ∀ b ∈ s.live, ¬ b.Has ((p - s.heap.allocStart) / PAGE_SIZE))

/-- A call of `malloc` for no more pages than there are, or of `free` for a pointer that it can take. -/
def Proper (s : HeapSession) : PoolCall → Prop
  | .malloc size => pageNum size ≤ s.heap.numPages
  | .free p => s.Freeable p

/-- `free` is safe for a pointer: it stays inside the descriptors, and unless the pointer is the start of a live
block it changes no descriptor of one. -/
def FreeSafe (s : HeapSession) (p : Nat) : Prop :=
  ∃ h, s.heap.free p = some h ∧ ((∀ b ∈ s.live, b.ptr s.heap ≠ p) →
    ∀ b ∈ s.live, ∀ page, b.Has page → h.flags page = s.heap.flags page)

/-- The page of a pointer into the pool. -/
theorem Sound.page_eq (sound : s.Sound) (low : s.heap.allocStart ≤ p) (high : p < s.heap.allocEnd) :
    (p + 2 ^ 32 - s.heap.allocStart) % 2 ^ 32 / PAGE_SIZE = (p - s.heap.allocStart) / PAGE_SIZE ∧
      (p - s.heap.allocStart) / PAGE_SIZE < s.heap.numPages := by
  have end_ := sound.end_
  have fits := sound.fits
  simp only [PAGE_SIZE] at end_ ⊢
  omega

/-- `free` of a pointer that is not looked at. -/
theorem free_outside (outside : p = 0 ∨ s.heap.allocEnd ≤ p) : s.heap.free p = some s.heap := if_pos outside

theorem free_inside (inside : ¬ (p = 0 ∨ s.heap.allocEnd ≤ p))
    (index : (p + 2 ^ 32 - s.heap.allocStart) % 2 ^ 32 / PAGE_SIZE = page) :
    s.heap.free p = (Heap.freeLoop (s.heap.numPages - page) page s.heap.flags).map fun flags =>
      { s.heap with flags := flags } := by
  subst index
  exact if_neg inside

/-- `free` of a pointer into a page that no block has. -/
theorem Sound.free_vacant (sound : s.Sound) (inside : ¬ (p = 0 ∨ s.heap.allocEnd ≤ p))
    (low : s.heap.allocStart ≤ p)
    (vacant : ∀ b ∈ s.live, ¬ b.Has ((p - s.heap.allocStart) / PAGE_SIZE)) : s.heap.free p = some s.heap := by
  obtain ⟨index, below⟩ := sound.page_eq low (by omega)
  obtain ⟨left, rounds⟩ : ∃ left, s.heap.numPages - (p - s.heap.allocStart) / PAGE_SIZE = left + 1 :=
    ⟨s.heap.numPages - (p - s.heap.allocStart) / PAGE_SIZE - 1, by omega⟩
  have unused : Heap.isFree (s.heap.flags ((p - s.heap.allocStart) / PAGE_SIZE)) = true := by
    rw [sound.flags _ below, Heap.isFree_encoded]
    exact vacant
  rw [free_inside inside index, rounds, Heap.freeLoop, if_pos unused]
  rfl

/-- `free` of a pointer that is not the start of a block but into one of its pages. -/
theorem Sound.free_within (sound : s.Sound) (member : b ∈ s.live) (inside : ¬ (p = 0 ∨ s.heap.allocEnd ≤ p))
    (low : s.heap.allocStart ≤ p) (has : b.Has ((p - s.heap.allocStart) / PAGE_SIZE)) :
    ∃ h, s.heap.free p = some h ∧
      h.flags ((p - s.heap.allocStart) / PAGE_SIZE) ≠ s.heap.flags ((p - s.heap.allocStart) / PAGE_SIZE) := by
  obtain ⟨index, below⟩ := sound.page_eq low (by omega)
  obtain ⟨positive, bound⟩ := sound.inside b member
  generalize (p - s.heap.allocStart) / PAGE_SIZE = page at *
  obtain ⟨first, past⟩ : b.first ≤ page ∧ page < b.first + b.npages := has
  have last : b.last = b.first + b.npages - 1 := rfl
  obtain ⟨flags, ran, cleared⟩ := Heap.freeLoop_eq s.heap.flags (show page ≤ b.last by omega)
    (show b.last < page + (s.heap.numPages - page) by omega)
    (fun later lower upper => by rw [sound.own member ⟨by omega, by omega⟩, if_neg (by omega)])
    (by rw [sound.own member ⟨by omega, by omega⟩, if_pos rfl])
  refine ⟨{ s.heap with flags := flags }, ?_, ?_⟩
  · rw [free_inside inside index, ran]
    rfl
  · have zero : flags page = 0 := (cleared page).trans (if_pos ⟨le_rfl, by omega⟩)
    show flags page ≠ s.heap.flags page
    rw [zero, sound.own member ⟨first, past⟩]
    split <;> decide

/-- In front of the pool the index leads behind the descriptors. -/
theorem Sound.free_before (sound : s.Sound) (positive : p ≠ 0) (before : p < s.heap.allocStart) :
    s.heap.free p = none := by
  have end_ := sound.end_
  have fits := sound.fits
  have behind : s.heap.numPages - (p + 2 ^ 32 - s.heap.allocStart) % 2 ^ 32 / PAGE_SIZE = 0 := by
    simp only [PAGE_SIZE] at end_ ⊢
    omega
  have inside : ¬ (p = 0 ∨ s.heap.allocEnd ≤ p) := by omega
  rw [free_inside inside rfl, behind]
  rfl

/-- `free` of the start of a live block. -/
theorem Sound.free_start (sound : s.Sound) (member : b ∈ s.live) :
    s.released (b.ptr s.heap) = s.live.erase b := by
  unfold released
  cases found : s.live.find? fun b' => b'.ptr s.heap = b.ptr s.heap with
  | none => exact absurd (List.find?_eq_none.mp found b member) (by simp)
  | some b' =>
      have same : b'.ptr s.heap = b.ptr s.heap := by simpa using List.find?_some found
      have member' := List.mem_of_find?_eq_some found
      have first : b'.first = b.first := by
        simp only [PageBlock.ptr, PAGE_SIZE] at same
        omega
      have positive := (sound.inside b member).1
      have positive' := (sound.inside b' member').1
      have one := sound.unique member' member (⟨by omega, by omega⟩ : b'.Has b.first) ⟨le_rfl, by omega⟩
      rw [one]

/-- Proper calls keep the session sound. -/
theorem Sound.anyStep {call : PoolCall} (sound : s.Sound) (proper : s.Proper call)
    (step : AnyStep s call s') : s'.Sound := by
  cases step with
  | @found size p h ran =>
      rcases Nat.lt_or_ge (pageNum size) s.heap.numPages with fewer | more
      · exact sound.step (.found fewer ran)
      · -- the loop has no rounds
        have all : pageNum size = s.heap.numPages := le_antisymm proper more
        have rounds : (s.heap.numPages + 2 ^ 32 - s.heap.numPages) % 2 ^ 32 = 0 := by omega
        have none : s.heap.firstFit (pageNum size) = .none := by
          rw [Heap.firstFit, all, rounds]
          rfl
        rw [Heap.malloc_none none] at ran
        cases ran
  | @null size h ran =>
      cases found : s.heap.firstFit (pageNum size) with
      | none =>
          rw [Heap.malloc_none found] at ran
          cases ran
          exact sound
      | some i =>
          rw [Heap.malloc_some found] at ran
          cases ran
  | @free p h ran =>
      by_cases outside : p = 0 ∨ s.heap.allocEnd ≤ p
      · have none : s.live.find? (fun b => b.ptr s.heap = p) = .none := by
          refine List.find?_eq_none.mpr fun b member same => ?_
          have same : b.ptr s.heap = p := by simpa using same
          obtain ⟨positive, bound⟩ := sound.inside b member
          have start := sound.positive
          have end_ := sound.end_
          simp only [PageBlock.ptr, PAGE_SIZE] at same end_
          omega
        rw [free_outside outside] at ran
        cases ran
        unfold released
        rwa [none]
      have proper : s.heap.allocStart ≤ p ∧ ((∃ b ∈ s.live, b.ptr s.heap = p) ∨
          ∀ b ∈ s.live, ¬ b.Has ((p - s.heap.allocStart) / PAGE_SIZE)) := by
        rcases proper with zero | high | inside
        · exact absurd (.inl zero) outside
        · exact absurd (.inr high) outside
        · exact inside
      obtain ⟨low, ⟨b, member, rfl⟩ | vacant⟩ := proper
      · obtain ⟨h', ran', sound', -⟩ := sound.free member
        cases ran.symm.trans ran'
        rwa [sound.free_start member]
      · have none : s.live.find? (fun b => b.ptr s.heap = p) = .none := by
          refine List.find?_eq_none.mpr fun b member same => vacant b member ?_
          have same : b.ptr s.heap = p := by simpa using same
          have positive := (sound.inside b member).1
          rw [← same, PageBlock.ptr, Nat.add_sub_cancel_left, Nat.mul_div_cancel _ (by decide)]
          exact ⟨le_rfl, by omega⟩
        rw [sound.free_vacant outside low vacant] at ran
        cases ran
        unfold released
        rwa [none]

theorem pool_inductive : poolSystem.Inductive Proper HeapSession.Sound where
  initial := Sound.initial
  preserved := fun sound proper step => sound.anyStep proper step

/-- In a session of proper calls `free` is safe exactly for the pointers that it can take. -/
theorem free_safe_iff (run : poolSystem.ReachableUnder Proper s) (p : Nat) : s.FreeSafe p ↔ s.Freeable p := by
  have sound : s.Sound := run.invariant pool_inductive
  by_cases outside : p = 0 ∨ s.heap.allocEnd ≤ p
  · refine iff_of_true ⟨s.heap, free_outside outside, fun _ _ _ _ _ => rfl⟩ ?_
    exact outside.imp_right .inl
  have freeable : s.Freeable p ↔ s.heap.allocStart ≤ p ∧ ((∃ b ∈ s.live, b.ptr s.heap = p) ∨
      ∀ b ∈ s.live, ¬ b.Has ((p - s.heap.allocStart) / PAGE_SIZE)) := by
    unfold Freeable
    rw [← or_assoc]
    exact or_iff_right outside
  rw [freeable]
  rcases Nat.lt_or_ge p s.heap.allocStart with before | low
  · refine iff_of_false ?_ fun both => absurd both.1 (not_le.mpr before)
    rintro ⟨h, ran, -⟩
    rw [sound.free_before (fun zero => outside (.inl zero)) before] at ran
    cases ran
  by_cases start : ∃ b ∈ s.live, b.ptr s.heap = p
  · obtain ⟨b, member, rfl⟩ := start
    obtain ⟨h, ran, -, -⟩ := sound.free member
    exact iff_of_true ⟨h, ran, fun no => absurd rfl (no b member)⟩ ⟨low, .inl ⟨b, member, rfl⟩⟩
  by_cases vacant : ∀ b ∈ s.live, ¬ b.Has ((p - s.heap.allocStart) / PAGE_SIZE)
  · exact iff_of_true ⟨s.heap, sound.free_vacant outside low vacant, fun _ _ _ _ _ => rfl⟩
      ⟨low, .inr vacant⟩
  · refine iff_of_false ?_ fun both => both.2.elim start vacant
    rintro ⟨h, ran, kept⟩
    push Not at vacant
    obtain ⟨b, member, has⟩ := vacant
    obtain ⟨h', ran', changed⟩ := sound.free_within member outside low has
    cases ran.symm.trans ran'
    exact changed (kept (fun b' member' same => start ⟨b', member', same⟩) b member _ has)

/-- After `page_init` and a `malloc` of four pages. -/
def fourPages : HeapSession := ⟨(eightPages.malloc 1024).2, [⟨0, 4⟩]⟩

theorem reachable_fourPages : poolSystem.ReachableUnder Proper fourPages := by
  have started : poolSystem.Initial ⟨eightPages, []⟩ :=
    ⟨_, _, _, ⟨by decide, by decide, by decide⟩, rfl, rfl⟩
  have ran : eightPages.malloc 1024 = (some eightPages.allocStart, (eightPages.malloc 1024).2) :=
    Prod.ext (eightPages_first 1024 (by decide)) rfl
  have proper : Proper ⟨eightPages, []⟩ (.malloc 1024) := by
    unfold Proper
    decide
  exact (TransitionSystem.ReachableUnder.initial started).step proper
    (@AnyStep.found ⟨eightPages, []⟩ 1024 _ _ ran)

/-- The start of the block is a pointer that `free` can take. -/
theorem free_safe_four : fourPages.FreeSafe (PageBlock.ptr ⟨0, 4⟩ fourPages.heap) :=
  (free_safe_iff reachable_fourPages _).mpr
    (.inr (.inr ⟨Nat.le_add_right _ _, .inl ⟨_, List.mem_cons_self, rfl⟩⟩))

/-- A pointer into the second page of a block, and one in front of the pool. -/
theorem free_unsafe : ∃ s : HeapSession, poolSystem.Reachable s ∧
    ¬ s.FreeSafe (s.heap.allocStart + PAGE_SIZE) ∧ ¬ s.FreeSafe 4 := by
  have sound : fourPages.Sound := reachable_fourPages.invariant pool_inductive
  refine ⟨fourPages, reachable_fourPages.mono fun _ => trivial, ?_, ?_⟩
  · rintro ⟨h, ran, kept⟩
    have member : (⟨0, 4⟩ : PageBlock) ∈ fourPages.live := List.mem_cons_self
    have page : (fourPages.heap.allocStart + PAGE_SIZE - fourPages.heap.allocStart) / PAGE_SIZE = 1 := by
      rw [Nat.add_sub_cancel_left]
      rfl
    have has : PageBlock.Has ⟨0, 4⟩ ((fourPages.heap.allocStart + PAGE_SIZE - fourPages.heap.allocStart) /
        PAGE_SIZE) := by
      rw [page]
      decide
    obtain ⟨h', ran', changed⟩ := sound.free_within member (by decide) (Nat.le_add_right _ _) has
    cases ran.symm.trans ran'
    refine changed (kept (fun b live same => ?_) _ member _ has)
    obtain rfl := List.mem_singleton.mp live
    have apart : PageBlock.ptr ⟨0, 4⟩ fourPages.heap = fourPages.heap.allocStart := by simp [PageBlock.ptr]
    rw [apart, PAGE_SIZE] at same
    omega
  · rintro ⟨h, ran, -⟩
    rw [sound.free_before (by decide) (by decide)] at ran
    cases ran

end HeapSession

end Riscv2os.MiniRiscvOs
