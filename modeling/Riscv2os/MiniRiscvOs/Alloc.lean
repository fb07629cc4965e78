import Riscv2os.Std.TransitionSystem

/-!
# The page allocator of mini-riscv-os

`alloc.c` of `10-SystemCall`. There is a descriptor of one byte for each page; a block is told from
the next one by the flag of its last page alone. A session keeps the blocks that are live beside the
heap, and the descriptors always encode them.
-/

namespace Riscv2os.MiniRiscvOs

open Riscv2os.Std

def PAGE_SIZE : Nat := 256

def PAGE_TAKEN : UInt8 := 1

def PAGE_LAST : UInt8 := 2

/-- `pageNum`: the number of pages for a size in bytes. -/
def pageNum (size : Nat) : Nat := size / (PAGE_SIZE + 1) + 1

/-- `_alloc_start`, `_alloc_end`, `_num_pages` and the descriptors. -/
structure Heap where
  allocStart : Nat
  allocEnd : Nat
  numPages : Nat
  flags : Nat → UInt8

namespace Heap

def isFree (flags : UInt8) : Bool := flags &&& PAGE_TAKEN == 0

def isLast (flags : UInt8) : Bool := flags &&& PAGE_LAST != 0

/-- `_set_flag` of a page. -/
def setFlag (flags : Nat → UInt8) (page : Nat) (flag : UInt8) : Nat → UInt8 :=
  Function.update flags page (flags page ||| flag)

/-- `_clear` of a page. -/
def clear (flags : Nat → UInt8) (page : Nat) : Nat → UInt8 := Function.update flags page 0

/-- Align an address to the border of a page. -/
def alignPage (address : Nat) : Nat :=
  let up := (address + (PAGE_SIZE - 1)) % 2 ^ 32
  up - up % PAGE_SIZE

/-- `page_init`. The descriptors are at `HEAP_START`, in memory that holds anything. -/
def pageInit (heapStart heapSize : Nat) (memory : Nat → UInt8) : Heap :=
  let numPages := (heapSize / PAGE_SIZE + 2 ^ 32 - 2048) % 2 ^ 32
  let allocStart := alignPage ((heapStart + 2048 * PAGE_SIZE) % 2 ^ 32)
  { allocStart := allocStart
    allocEnd := (allocStart + PAGE_SIZE * numPages) % 2 ^ 32
    numPages := numPages
    flags := fun page => if page < numPages then 0 else memory page }

/-- Whether the pages from `i` on are free, which `malloc` looks up one by one. -/
def allFree (h : Heap) (i npages : Nat) : Bool :=
  (List.range' i npages).all fun page => isFree (h.flags page)

/-- Take the pages of a block. -/
def take (h : Heap) (i npages : Nat) : Heap :=
  let taken := (List.range' i npages).foldl (fun flags page => setFlag flags page PAGE_TAKEN) h.flags
  { h with flags := setFlag taken (i + npages - 1) PAGE_LAST }

/-- The first page from which on there are enough free pages. -/
def firstFit (h : Heap) (npages : Nat) : Option Nat :=
  (List.range ((h.numPages + 2 ^ 32 - npages) % 2 ^ 32)).find? fun i =>
    isFree (h.flags i) && h.allFree i npages

/-- What `malloc` does with the page that it finds. -/
def place (h : Heap) (npages : Nat) : Option Nat → Option Nat × Heap
  | some i => (some (h.allocStart + i * PAGE_SIZE), h.take i npages)
  | none => (none, h)

/-- Allocate a block for `size` bytes. The first result is the address, or `NULL`. -/
def malloc (h : Heap) (size : Nat) : Option Nat × Heap :=
  h.place (pageNum size) (h.firstFit (pageNum size))

/-- The loop of `free` from a page on, with the descriptors that are left behind it. It must not
run over their end. -/
def freeLoop : Nat → Nat → (Nat → UInt8) → Option (Nat → UInt8)
  | 0, _, _ => none
  | left + 1, page, flags =>
      if isFree (flags page) then some flags
      else if isLast (flags page) then some (clear flags page)
      else freeLoop left (page + 1) (clear flags page)

/-- Free the block at an address. -/
def free (h : Heap) (p : Nat) : Option Heap :=
  if p = 0 ∨ h.allocEnd ≤ p then some h
  else
    let page := (p + 2 ^ 32 - h.allocStart) % 2 ^ 32 / PAGE_SIZE
    (freeLoop (h.numPages - page) page h.flags).map fun flags => { h with flags := flags }

end Heap

/-- A block by its first page and its number of pages. -/
structure PageBlock where
  first : Nat
  npages : Nat
deriving DecidableEq, Repr

namespace PageBlock

/-- The block has a page. -/
def Has (b : PageBlock) (page : Nat) : Prop := b.first ≤ page ∧ page < b.first + b.npages

def last (b : PageBlock) : Nat := b.first + b.npages - 1

/-- The address of the block. -/
def ptr (b : PageBlock) (h : Heap) : Nat := h.allocStart + b.first * PAGE_SIZE

instance (b : PageBlock) (page : Nat) : Decidable (b.Has page) := inferInstanceAs (Decidable (_ ∧ _))

end PageBlock

/-- The heap, and the blocks that are live. -/
structure HeapSession where
  heap : Heap
  live : List PageBlock

/-- The calls. -/
inductive HeapCall where
  | malloc (size : Nat)
  | free (b : PageBlock)

/-- A call of `malloc` for fewer pages than there are, or of `free` for a live block. -/
inductive HeapSession.Step : HeapSession → HeapCall → HeapSession → Prop where
  | found {s : HeapSession} {size p : Nat} {h : Heap} (fewer : pageNum size < s.heap.numPages)
      (ran : s.heap.malloc size = (some p, h)) :
      Step s (.malloc size) ⟨h, ⟨(p - s.heap.allocStart) / PAGE_SIZE, pageNum size⟩ :: s.live⟩
  | null {s : HeapSession} {size : Nat} {h : Heap} (fewer : pageNum size < s.heap.numPages)
      (ran : s.heap.malloc size = (none, h)) : Step s (.malloc size) ⟨h, s.live⟩
  | free {s : HeapSession} {b : PageBlock} {h : Heap} (live : b ∈ s.live)
      (ran : s.heap.free (b.ptr s.heap) = some h) : Step s (.free b) ⟨h, s.live.erase b⟩

/-- The heap that the linker script lays out: it ends with the memory, and the program leaves room
for the descriptors. -/
structure HeapLayout (heapStart heapSize : Nat) : Prop where
  inMemory : 0x80000000 ≤ heapStart
  toEnd : heapStart + heapSize = 0x88000000
  room : 2048 * PAGE_SIZE ≤ heapSize

/-- The sessions after `page_init`. -/
def heapSystem : TransitionSystem HeapSession HeapCall where
  Initial s := ∃ heapStart heapSize memory, HeapLayout heapStart heapSize ∧
    s.heap = Heap.pageInit heapStart heapSize memory ∧ s.live = []
  Step := HeapSession.Step

/-- The flags of a page for the blocks that are live. -/
def encoded (live : List PageBlock) (page : Nat) : UInt8 :=
  if ∃ b ∈ live, b.Has page ∧ b.last = page then PAGE_TAKEN ||| PAGE_LAST
  else if ∃ b ∈ live, b.Has page then PAGE_TAKEN else 0

/-- What holds in every state of a session. -/
structure HeapSession.Sound (s : HeapSession) : Prop where
  positive : 0 < s.heap.allocStart
  end_ : s.heap.allocEnd = s.heap.allocStart + PAGE_SIZE * s.heap.numPages
  fits : s.heap.allocEnd < 2 ^ 32
  inside : ∀ b ∈ s.live, 0 < b.npages ∧ b.first + b.npages ≤ s.heap.numPages
  apart : s.live.Pairwise fun b b' => ∀ page, ¬ (b.Has page ∧ b'.Has page)
  flags : ∀ page < s.heap.numPages, s.heap.flags page = encoded s.live page

namespace Heap

variable {h h' : Heap} {flags : Nat → UInt8} {i npages page : Nat}

theorem isFree_encoded {live : List PageBlock} :
    isFree (encoded live page) = true ↔ ∀ b ∈ live, ¬ b.Has page := by
  unfold encoded
  split
  · next last =>
    obtain ⟨b, member, has, _⟩ := last
    exact iff_of_false (by decide) fun none_ => none_ b member has
  · split
    · next taken =>
      obtain ⟨b, member, has⟩ := taken
      exact iff_of_false (by decide) fun none_ => none_ b member has
    · next free =>
      refine iff_of_true (by decide) fun b member has => free ⟨b, member, has⟩

theorem pageInit_end {heapStart heapSize : Nat} {memory : Nat → UInt8}
    (init : h = pageInit heapStart heapSize memory) :
    h.allocEnd = (h.allocStart + PAGE_SIZE * h.numPages) % 2 ^ 32 := by
  subst init
  rfl

theorem pageInit_flags {heapStart heapSize : Nat} {memory : Nat → UInt8}
    (init : h = pageInit heapStart heapSize memory) (small : page < h.numPages) :
    h.flags page = 0 := by
  subst init
  simp only [pageInit] at small ⊢
  rw [if_pos small]

/-- The flags after the loop that takes pages. -/
theorem taken_eq : (List.range' i npages).foldl (fun flags page => setFlag flags page PAGE_TAKEN) flags page =
    if i ≤ page ∧ page < i + npages then flags page ||| PAGE_TAKEN else flags page := by
  induction npages generalizing i flags with
  | zero => simp
  | succ npages ih =>
      rw [List.range'_succ, List.foldl_cons, ih]
      by_cases here : page = i
      · subst here
        rw [if_neg (by omega), if_pos (by omega), setFlag, Function.update_self]
      · rw [setFlag, Function.update_of_ne here]
        have shift : (i + 1 ≤ page ∧ page < i + 1 + npages) ↔ (i ≤ page ∧ page < i + (npages + 1)) := by
          omega
        simp only [shift]

theorem allFree_iff : h.allFree i npages = true ↔
    ∀ page, i ≤ page → page < i + npages → isFree (h.flags page) = true := by
  unfold allFree
  rw [List.all_eq_true]
  constructor
  · intro all page lower upper
    exact all page (List.mem_range'_1.mpr ⟨lower, upper⟩)
  · intro all page member
    obtain ⟨lower, upper⟩ := List.mem_range'_1.mp member
    exact all page lower upper

/-- The pages that are found are free. -/
theorem firstFit_some (fewer : npages < h.numPages) (small : h.numPages < 2 ^ 32)
    (found : h.firstFit npages = some i) :
    i + npages ≤ h.numPages ∧
      ∀ page, i ≤ page → page < i + npages → isFree (h.flags page) = true := by
  unfold firstFit at found
  have member := List.mem_range.mp (List.mem_of_find?_eq_some found)
  have fits := List.find?_some found
  have rounds : (h.numPages + 2 ^ 32 - npages) % 2 ^ 32 = h.numPages - npages := by omega
  rw [rounds] at member
  exact ⟨by omega, allFree_iff.mp (Bool.and_eq_true_iff.mp fits).2⟩

theorem malloc_some {size : Nat} (found : h.firstFit (pageNum size) = some i) :
    h.malloc size = (some (h.allocStart + i * PAGE_SIZE), h.take i (pageNum size)) :=
  congrArg (h.place (pageNum size)) found

theorem malloc_none {size : Nat} (found : h.firstFit (pageNum size) = none) :
    h.malloc size = (none, h) :=
  congrArg (h.place (pageNum size)) found

/-- The loop of `free` clears the pages up to the first last one. -/
theorem freeLoop_eq (flags : Nat → UInt8) {left first last : Nat} (le : first ≤ last) (inside : last < first + left)
    (taken : ∀ page, first ≤ page → page < last → flags page = PAGE_TAKEN)
    (end_ : flags last = PAGE_TAKEN ||| PAGE_LAST) :
    ∃ flags', freeLoop left first flags = some flags' ∧
      ∀ page, flags' page = if first ≤ page ∧ page ≤ last then 0 else flags page := by
  induction left generalizing first flags with
  | zero => omega
  | succ left ih =>
      by_cases here : first = last
      · subst here
        refine ⟨clear flags first, ?_, fun page => ?_⟩
        · have used : isFree (flags first) = false := by rw [end_]; decide
          have final : isLast (flags first) = true := by rw [end_]; decide
          simp [freeLoop, used, final]
        · rw [clear, Function.update_apply]
          have same : (first ≤ page ∧ page ≤ first) ↔ page = first := by omega
          simp only [same]
      · have flag := taken first le_rfl (by omega)
        have used : isFree (flags first) = false := by rw [flag]; decide
        have more : isLast (flags first) = false := by rw [flag]; decide
        have beyond : ∀ {page}, first + 1 ≤ page → clear flags first page = flags page := fun later =>
          Function.update_of_ne (by omega) ..
        obtain ⟨flags', ran, cleared⟩ := ih (clear flags first) (show first + 1 ≤ last by omega)
          (by omega) (fun page lower upper => by rw [beyond lower]; exact taken page (by omega) upper)
          (by rw [beyond (by omega)]; exact end_)
        refine ⟨flags', by simp [freeLoop, used, more, ran], fun page => ?_⟩
        rw [cleared, clear, Function.update_apply]
        by_cases start : page = first
        · rw [if_neg (by omega), if_pos start, if_pos (by omega)]
        · rw [if_neg start]
          have shift : (first + 1 ≤ page ∧ page ≤ last) ↔ (first ≤ page ∧ page ≤ last) := by omega
          simp only [shift]

/-- The flags after a block is taken. -/
theorem take_flags (positive : 0 < npages) : (h.take i npages).flags page =
    if page = i + npages - 1 then h.flags page ||| PAGE_TAKEN ||| PAGE_LAST
    else if i ≤ page ∧ page < i + npages then h.flags page ||| PAGE_TAKEN else h.flags page := by
  show setFlag _ (i + npages - 1) PAGE_LAST page = _
  rw [setFlag, Function.update_apply, taken_eq, taken_eq]
  by_cases last : page = i + npages - 1
  · subst last
    rw [if_pos rfl, if_pos rfl, if_pos (by omega)]
  · rw [if_neg last, if_neg last]

end Heap

namespace HeapSession

variable {s s' : HeapSession} {b : PageBlock} {live : List PageBlock} {page : Nat}

theorem encoded_free (free : ∀ b ∈ live, ¬ b.Has page) : encoded live page = 0 := by
  unfold encoded
  rw [if_neg, if_neg]
  · rintro ⟨b, member, has⟩
    exact free b member has
  · rintro ⟨b, member, has, _⟩
    exact free b member has

/-- A block that does not have a page says nothing about it. -/
theorem encoded_congr {live' : List PageBlock}
    (same : ∀ b, b.Has page → (b ∈ live ↔ b ∈ live')) : encoded live page = encoded live' page := by
  have last : (∃ b ∈ live, b.Has page ∧ b.last = page) ↔ ∃ b ∈ live', b.Has page ∧ b.last = page := by
    constructor
    · rintro ⟨b, member, has, last⟩
      exact ⟨b, (same b has).mp member, has, last⟩
    · rintro ⟨b, member, has, last⟩
      exact ⟨b, (same b has).mpr member, has, last⟩
  have taken : (∃ b ∈ live, b.Has page) ↔ ∃ b ∈ live', b.Has page := by
    constructor
    · rintro ⟨b, member, has⟩
      exact ⟨b, (same b has).mp member, has⟩
    · rintro ⟨b, member, has⟩
      exact ⟨b, (same b has).mpr member, has⟩
  simp only [encoded, last, taken]

/-- The flags of a page of one block alone. -/
theorem encoded_only (member : b ∈ live) (has : b.Has page)
    (only : ∀ b' ∈ live, b'.Has page → b' = b) :
    encoded live page = if b.last = page then PAGE_TAKEN ||| PAGE_LAST else PAGE_TAKEN := by
  unfold encoded
  by_cases last : b.last = page
  · rw [if_pos ⟨b, member, has, last⟩, if_pos last]
  · rw [if_neg, if_pos ⟨b, member, has⟩, if_neg last]
    rintro ⟨b', member', has', last'⟩
    rw [only b' member' has'] at last'
    exact last last'

namespace Sound

/-- The block that is freed is apart from the others. -/
theorem erase (sound : s.Sound) (member : b ∈ s.live) {b' : PageBlock} (rest : b' ∈ s.live.erase b) :
    ∀ page, ¬ (b.Has page ∧ b'.Has page) := by
  have symmetric : ∀ {b b' : PageBlock}, (∀ page, ¬ (b.Has page ∧ b'.Has page)) →
      ∀ page, ¬ (b'.Has page ∧ b.Has page) := fun apart page both => apart page both.symm
  have first := ((List.perm_cons_erase member).pairwise_iff symmetric).mp sound.apart
  exact (List.pairwise_cons.mp first).1 b' rest

/-- Two live blocks with a common page are one. -/
theorem unique (sound : s.Sound) {b' : PageBlock} (member : b ∈ s.live) (member' : b' ∈ s.live)
    (has : b.Has page) (has' : b'.Has page) : b = b' := by
  by_contra differ
  have rest := (List.mem_erase_of_ne (Ne.symm differ)).mpr member'
  exact sound.erase member rest page ⟨has, has'⟩

/-- A block of free pages is taken. -/
theorem take (sound : s.Sound) {i npages : Nat} (positive : 0 < npages)
    (inside : i + npages ≤ s.heap.numPages)
    (free : ∀ page, i ≤ page → page < i + npages → Heap.isFree (s.heap.flags page) = true) :
    HeapSession.Sound ⟨s.heap.take i npages, ⟨i, npages⟩ :: s.live⟩ where
  positive := sound.positive
  end_ := sound.end_
  fits := sound.fits
  inside := by
    intro b member
    obtain rfl | member := List.mem_cons.mp member
    · exact ⟨positive, inside⟩
    · exact sound.inside b member
  apart := by
    refine List.pairwise_cons.mpr ⟨fun b member page both => ?_, sound.apart⟩
    have unused := free page both.1.1 both.1.2
    rw [sound.flags page (by have := both.1.2; simp only at this; omega), Heap.isFree_encoded] at unused
    exact unused b member both.2
  flags := by
    intro page small
    change page < s.heap.numPages at small
    show (s.heap.take i npages).flags page = encoded (⟨i, npages⟩ :: s.live) page
    rw [Heap.take_flags positive, sound.flags page small]
    by_cases has : PageBlock.Has ⟨i, npages⟩ page
    · have unused := free page has.1 has.2
      rw [sound.flags page small, Heap.isFree_encoded] at unused
      rw [encoded_only List.mem_cons_self has (fun b' member has' => by
        obtain rfl | member := List.mem_cons.mp member
        · rfl
        · exact absurd has' (unused b' member)), encoded_free unused]
      have range : i ≤ page ∧ page < i + npages := has
      by_cases last : page = i + npages - 1
      · rw [if_pos last, if_pos (show PageBlock.last ⟨i, npages⟩ = page from last.symm)]
        rfl
      · rw [if_neg last, if_pos range, if_neg (show ¬ PageBlock.last ⟨i, npages⟩ = page from Ne.symm last)]
        rfl
    · have outside : ¬ (i ≤ page ∧ page < i + npages) := has
      rw [if_neg (by omega), if_neg outside]
      refine encoded_congr fun b has' => ?_
      rw [List.mem_cons]
      refine (or_iff_right ?_).symm
      rintro rfl
      exact has has'

/-- The flags of the pages of a live block. -/
theorem own (sound : s.Sound) (member : b ∈ s.live) (has : b.Has page) : s.heap.flags page =
    if b.last = page then PAGE_TAKEN ||| PAGE_LAST else PAGE_TAKEN := by
  have inside := (sound.inside b member).2
  have below := has.2
  rw [sound.flags page (by omega)]
  exact encoded_only member has fun b' member' has' => (sound.unique member member' has has').symm

/-- What `free` of a live block does. -/
theorem free (sound : s.Sound) (member : b ∈ s.live) :
    ∃ h, s.heap.free (b.ptr s.heap) = some h ∧ HeapSession.Sound ⟨h, s.live.erase b⟩ ∧
      ∀ page, h.flags page = if b.Has page then 0 else s.heap.flags page := by
  obtain ⟨positive, inside⟩ := sound.inside b member
  have end_ := sound.end_
  have fits := sound.fits
  have start := sound.positive
  have ptr : b.ptr s.heap = s.heap.allocStart + b.first * PAGE_SIZE := rfl
  simp only [PAGE_SIZE] at end_ ptr
  have early : ¬ (b.ptr s.heap = 0 ∨ s.heap.allocEnd ≤ b.ptr s.heap) := by omega
  have page : (b.ptr s.heap + 2 ^ 32 - s.heap.allocStart) % 2 ^ 32 / PAGE_SIZE = b.first := by
    simp only [PAGE_SIZE]
    omega
  have own : ∀ page, b.Has page → s.heap.flags page =
      if b.last = page then PAGE_TAKEN ||| PAGE_LAST else PAGE_TAKEN := fun page => sound.own member
  have last : b.last = b.first + b.npages - 1 := rfl
  obtain ⟨flags, ran, cleared⟩ := Heap.freeLoop_eq s.heap.flags (show b.first ≤ b.last by omega)
    (show b.last < b.first + (s.heap.numPages - b.first) by omega)
    (fun page lower upper => by rw [own page ⟨lower, by omega⟩, if_neg (by omega)])
    (by rw [own b.last ⟨by omega, by omega⟩, if_pos rfl])
  have cleared : ∀ page, flags page = if b.Has page then 0 else s.heap.flags page := by
    intro page
    have range : (b.first ≤ page ∧ page ≤ b.last) ↔ b.Has page := by
      unfold PageBlock.Has
      omega
    rw [cleared]
    simp only [range]
  refine ⟨{ s.heap with flags := flags }, ?_, ?_, cleared⟩
  · unfold Heap.free
    simp only [if_neg early, page, ran, Option.map_some]
  · refine ⟨sound.positive, sound.end_, sound.fits,
      fun b' rest => sound.inside b' (List.mem_of_mem_erase rest),
      sound.apart.sublist List.erase_sublist, fun page small => ?_⟩
    show flags page = encoded (s.live.erase b) page
    rw [cleared]
    split
    · next has =>
      exact (encoded_free fun b' rest has' => sound.erase member rest page ⟨has, has'⟩).symm
    · next outside =>
      rw [sound.flags page small]
      refine encoded_congr fun b' has' => ?_
      have differ : b' ≠ b := by
        rintro rfl
        exact outside has'
      exact (List.mem_erase_of_ne differ).symm

/-- Every call keeps the session sound. -/
theorem step (sound : s.Sound) {call : HeapCall} (step : HeapSession.Step s call s') : s'.Sound := by
  have end_ := sound.end_
  have fits := sound.fits
  have small : s.heap.numPages < 2 ^ 32 := by
    simp only [PAGE_SIZE] at end_
    omega
  cases step with
  | @found size p h fewer ran =>
      cases found : s.heap.firstFit (pageNum size) with
      | none =>
          rw [Heap.malloc_none found] at ran
          exact absurd (congrArg Prod.fst ran) (by simp)
      | some i =>
          rw [Heap.malloc_some found, Prod.mk.injEq] at ran
          obtain ⟨ptr, rfl⟩ := ran
          obtain ⟨inside, free⟩ := Heap.firstFit_some fewer small found
          have first : (p - s.heap.allocStart) / PAGE_SIZE = i := by
            rw [← Option.some.inj ptr, Nat.add_sub_cancel_left, Nat.mul_div_cancel _ (by decide)]
          rw [first]
          exact sound.take (Nat.succ_pos _) inside free
  | @null size h fewer ran =>
      cases found : s.heap.firstFit (pageNum size) with
      | none =>
          rw [Heap.malloc_none found, Prod.mk.injEq] at ran
          obtain ⟨_, rfl⟩ := ran
          exact sound
      | some i =>
          rw [Heap.malloc_some found] at ran
          exact absurd (congrArg Prod.fst ran) (by simp)
  | free member ran =>
      obtain ⟨h, ran', sound', _⟩ := sound.free member
      rw [ran'] at ran
      cases ran
      exact sound'

/-- After `page_init` every page is free. -/
theorem initial (started : heapSystem.Initial s) : s.Sound := by
  obtain ⟨heapStart, heapSize, memory, linked, init, none_⟩ := started
  obtain ⟨inMemory, toEnd, room⟩ := linked
  have pages : s.heap.numPages = heapSize / PAGE_SIZE - 2048 := by
    rw [init, Heap.pageInit]
    simp only [PAGE_SIZE] at room ⊢
    omega
  have start : heapStart + 2048 * PAGE_SIZE ≤ s.heap.allocStart ∧
      s.heap.allocStart < heapStart + 2048 * PAGE_SIZE + PAGE_SIZE := by
    rw [init, Heap.pageInit, Heap.alignPage]
    simp only [PAGE_SIZE] at room ⊢
    omega
  have wraps := Heap.pageInit_end init
  simp only [PAGE_SIZE] at room start pages wraps
  have end_ : s.heap.allocEnd = s.heap.allocStart + PAGE_SIZE * s.heap.numPages := by
    simp only [PAGE_SIZE]
    omega
  refine ⟨by omega, end_, by omega, ?_, ?_, ?_⟩
  · rw [none_]
    exact fun b member => absurd member List.not_mem_nil
  · rw [none_]
    exact List.Pairwise.nil
  · intro page small
    rw [none_, encoded_free fun b member => absurd member List.not_mem_nil]
    exact Heap.pageInit_flags init small

theorem inductive_ : heapSystem.Inductive (fun _ _ => True) HeapSession.Sound where
  initial := initial
  preserved := fun sound _ => sound.step

/-- The memory of two live blocks is apart. -/
theorem disjoint (sound : s.Sound) : s.live.Pairwise fun b b' =>
    b.ptr s.heap + b.npages * PAGE_SIZE ≤ b'.ptr s.heap ∨
      b'.ptr s.heap + b'.npages * PAGE_SIZE ≤ b.ptr s.heap := by
  refine sound.apart.imp_of_mem fun {b b'} member member' apart => ?_
  have positive := (sound.inside b member).1
  have positive' := (sound.inside b' member').1
  have common := apart (max b.first b'.first)
  have common : ¬ (max b.first b'.first < b.first + b.npages ∧
      max b.first b'.first < b'.first + b'.npages) := fun both =>
    common ⟨⟨le_max_left .., both.1⟩, ⟨le_max_right .., both.2⟩⟩
  simp only [PageBlock.ptr, PAGE_SIZE]
  omega

end Sound

end HeapSession

open HeapSession in
/-- In every session the live blocks are disjoint and inside the pool, the descriptors encode them,
and `free` of a live block frees its pages and no others. -/
theorem heap_partition {s : HeapSession} (run : heapSystem.Reachable s) :
    (s.live.Pairwise fun b b' =>
      b.ptr s.heap + b.npages * PAGE_SIZE ≤ b'.ptr s.heap ∨
        b'.ptr s.heap + b'.npages * PAGE_SIZE ≤ b.ptr s.heap) ∧
    (∀ b ∈ s.live, 0 < b.npages ∧ s.heap.allocStart ≤ b.ptr s.heap ∧
      b.ptr s.heap + b.npages * PAGE_SIZE ≤ s.heap.allocEnd) ∧
    (∀ page < s.heap.numPages,
      (∀ b ∈ s.live, b.Has page → s.heap.flags page =
        if page = b.first + b.npages - 1 then PAGE_TAKEN ||| PAGE_LAST else PAGE_TAKEN) ∧
      ((∀ b ∈ s.live, ¬ b.Has page) → s.heap.flags page = 0)) ∧
    ∀ b ∈ s.live, ∃ h, s.heap.free (b.ptr s.heap) = some h ∧
      ∀ page, h.flags page = if b.Has page then 0 else s.heap.flags page := by
  have sound : s.Sound := run.invariant Sound.inductive_
  refine ⟨sound.disjoint, fun b member => ?_, fun page small => ⟨fun b member has => ?_, fun free => ?_⟩,
    fun b member => ?_⟩
  · obtain ⟨positive, inside⟩ := sound.inside b member
    have end_ := sound.end_
    simp only [PageBlock.ptr, PAGE_SIZE] at end_ ⊢
    omega
  · rw [sound.own member has]
    simp only [PageBlock.last, eq_comm]
  · rw [sound.flags page small, encoded_free free]
  · obtain ⟨h, ran, _, cleared⟩ := sound.free member
    exact ⟨h, ran, cleared⟩

/-- A pool of eight pages. -/
def eightPages : Heap := Heap.pageInit (0x88000000 - 2056 * 256) (2056 * 256) fun _ => 0xff

theorem eightPages_first : ∀ size ∈ [512, 513, 1024], (eightPages.malloc size).1 = some eightPages.allocStart := by
  decide +kernel

theorem eightPages_partition : ∃ s : HeapSession, heapSystem.Reachable s ∧ s.live = [⟨0, 4⟩] ∧
    (∀ b ∈ s.live, 0 < b.npages ∧ s.heap.allocStart ≤ b.ptr s.heap ∧
      b.ptr s.heap + b.npages * PAGE_SIZE ≤ s.heap.allocEnd) := by
  have started : heapSystem.Initial ⟨eightPages, []⟩ :=
    ⟨_, _, _, ⟨by decide, by decide, by decide⟩, rfl, rfl⟩
  have ran : eightPages.malloc 1024 = (some eightPages.allocStart, (eightPages.malloc 1024).2) :=
    Prod.ext (eightPages_first 1024 (by decide)) rfl
  have run : heapSystem.Reachable _ := (TransitionSystem.ReachableUnder.initial started).step trivial
    (@HeapSession.Step.found ⟨eightPages, []⟩ 1024 _ _ (by decide) ran)
  exact ⟨_, run, rfl, (heap_partition run).2.1⟩

namespace Heap

variable {h h' : Heap} {b : PageBlock} {i npages size p : Nat}

/-- The pages that `malloc` marks as taken are those of a block. -/
def Takes (h h' : Heap) (b : PageBlock) : Prop :=
  0 < b.npages ∧ ∀ page, isFree (h.flags page) = true ∧ isFree (h'.flags page) = false ↔ b.Has page

theorem isFree_taken (flags more : UInt8) : isFree (flags ||| PAGE_TAKEN ||| more) = false := by
  have bit : (flags ||| 1 ||| more) &&& 1 = 1 := by
    apply UInt8.toNat_inj.mp
    apply Nat.eq_of_testBit_eq
    intro i
    cases i with
    | zero => simp
    | succ i => simp [Nat.testBit_succ]
  unfold isFree PAGE_TAKEN
  rw [bit]
  rfl

theorem Takes.unique {b' : PageBlock} (takes : h.Takes h' b) (takes' : h.Takes h' b') : b = b' := by
  obtain ⟨positive, pages⟩ := takes
  obtain ⟨positive', pages'⟩ := takes'
  have same : ∀ page, b.Has page ↔ b'.Has page := fun page => (pages page).symm.trans (pages' page)
  have first := same b.first
  have first' := same b'.first
  have last := same (b.first + b.npages - 1)
  have last' := same (b'.first + b'.npages - 1)
  cases b
  cases b'
  simp only [PageBlock.Has] at first first' last last' positive positive'
  congr 1 <;> omega

/-- A block of free pages is taken. -/
theorem takes_take (positive : 0 < npages)
    (free : ∀ page, i ≤ page → page < i + npages → isFree (h.flags page) = true) :
    h.Takes (h.take i npages) ⟨i, npages⟩ := by
  refine ⟨positive, fun page => ?_⟩
  rw [take_flags positive]
  constructor
  · rintro ⟨before, after⟩
    by_contra outside
    have apart : ¬ (i ≤ page ∧ page < i + npages) := outside
    rw [if_neg (by omega), if_neg apart, before] at after
    cases after
  · rintro ⟨low, high⟩
    refine ⟨free page low high, ?_⟩
    split
    · exact isFree_taken _ _
    · rw [if_pos ⟨low, high⟩]
      have taken := isFree_taken (h.flags page) 0
      rwa [UInt8.or_zero] at taken

/-- The block of `malloc` has `pageNum` pages. -/
theorem malloc_takes (ran : h.malloc size = (some p, h')) :
    ∃ i, p = h.allocStart + i * PAGE_SIZE ∧ h.Takes h' ⟨i, pageNum size⟩ := by
  cases found : h.firstFit (pageNum size) with
  | none =>
      rw [malloc_none found] at ran
      cases ran
  | some i =>
      rw [malloc_some found] at ran
      cases ran
      unfold firstFit at found
      have fits := List.find?_some found
      have free := (Bool.and_eq_true_iff.mp fits).2
      exact ⟨i, rfl, takes_take (Nat.succ_pos _) (allFree_iff.mp free)⟩

/-- A block for `size` bytes: it has room for them, and no more than a page beyond the pages that they
need. -/
def RightSize (size : Nat) (b : PageBlock) : Prop :=
  size ≤ b.npages * PAGE_SIZE ∧ b.npages ≤ (size + (PAGE_SIZE - 1)) / PAGE_SIZE + 1

theorem pageNum_rightSize (size i : Nat) :
    RightSize size ⟨i, pageNum size⟩ ↔ size / (PAGE_SIZE + 1) + size % (PAGE_SIZE + 1) ≤ PAGE_SIZE := by
  simp only [RightSize, pageNum, PAGE_SIZE]
  omega

/-- The block of `malloc` has room for `size` bytes exactly when quotient and remainder of `size` by
`PAGE_SIZE + 1`, which `pageNum` divides by, add up to no more than `PAGE_SIZE`. -/
theorem malloc_rightSize_iff (ran : h.malloc size = (some p, h')) :
    (∃ b : PageBlock, p = b.ptr h ∧ h.Takes h' b ∧ RightSize size b) ↔
      size / (PAGE_SIZE + 1) + size % (PAGE_SIZE + 1) ≤ PAGE_SIZE := by
  obtain ⟨i, address, takes⟩ := malloc_takes ran
  rw [← pageNum_rightSize size i]
  constructor
  · rintro ⟨b, _, takes', right⟩
    rwa [takes'.unique takes] at right
  · exact fun right => ⟨⟨i, pageNum size⟩, address, takes, right⟩

/-- There is room for 512 bytes. -/
theorem malloc_two : ∃ p h, eightPages.malloc 512 = (some p, h) ∧
    ∃ b : PageBlock, p = b.ptr eightPages ∧ eightPages.Takes h b ∧ RightSize 512 b := by
  have ran : eightPages.malloc 512 = (some eightPages.allocStart, (eightPages.malloc 512).2) :=
    Prod.ext (eightPages_first 512 (by decide)) rfl
  have room : 512 / (PAGE_SIZE + 1) + 512 % (PAGE_SIZE + 1) ≤ PAGE_SIZE := by
    unfold PAGE_SIZE
    omega
  exact ⟨_, _, ran, (malloc_rightSize_iff ran).mpr room⟩

/-- The three pages that the document promises for 513 bytes are two. -/
theorem malloc_short : ∃ p h, eightPages.malloc 513 = (some p, h) ∧
    ¬ ∃ b : PageBlock, p = b.ptr eightPages ∧ eightPages.Takes h b ∧ RightSize 513 b := by
  have ran : eightPages.malloc 513 = (some eightPages.allocStart, (eightPages.malloc 513).2) :=
    Prod.ext (eightPages_first 513 (by decide)) rfl
  obtain ⟨i, _, takes⟩ := malloc_takes ran
  refine ⟨_, _, ran, ?_⟩
  rintro ⟨b, _, takes', right⟩
  rw [takes'.unique takes, pageNum_rightSize] at right
  exact absurd right (by decide)

end Heap

end Riscv2os.MiniRiscvOs
