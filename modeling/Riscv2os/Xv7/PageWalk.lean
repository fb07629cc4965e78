import Riscv2os.Std.ReferenceTree
import Riscv2os.Xv7.Kalloc

/-!
# Page tables in memory

`walk`, `mappages` and `uvmunmap` of `vm.c`, on the memory that `kalloc` and `kfree` manage. A page of a table is 512
entries of 64 bits. The pages of one table are a tree of depth two below its root, whose pages are in use and not
shared, and the leaf entries are those of its lowest pages.
-/

namespace Riscv2os.Xv7

open Riscv2os.Std
open RefTree (descend nodes Unshared)

/-- The index for an address in a table of this level. -/
def PX (level va : Nat) : Nat := va / 2 ^ (12 + 9 * level) % 512

/-- The physical address in an entry. -/
def PTE2PA (pte : Nat) : Nat := pte / 2 ^ 10 * 2 ^ 12 % 2 ^ 64

/-- A physical address at its place in an entry. -/
def PA2PTE (pa : Nat) : Nat := pa / 2 ^ 12 * 2 ^ 10

/-- `PTE_FLAGS`. -/
def pteFlags (pte : Nat) : Nat := pte % 2 ^ 10

namespace Ram

variable (end_ : Nat)

/-- `*pte`. -/
def pte (r : Ram) (place : Nat) : Nat := r.mem.load 8 place

/-- `*pte = value`. -/
def setPte (r : Ram) (place value : Nat) : Ram := { r with mem := r.mem.store 8 place value }

/-- The loop of `walk` from a level on. The result is the address of the entry, or 0. -/
def walkFrom (alloc : Bool) (va : Nat) : Nat → Nat → Ram → Nat × Ram
  | 0, pagetable, r => (pagetable + 8 * PX 0 va, r)
  | level + 1, pagetable, r =>
      let place := pagetable + 8 * PX (level + 1) va
      if r.pte place % 2 = 1 then walkFrom alloc va level (PTE2PA (r.pte place)) r
      else if !alloc then (0, r)
      else
        let (page, r) := r.kalloc end_
        if page = 0 then (0, r)
        else walkFrom alloc va level page ((r.fillPage page 0).setPte place (PA2PTE page ||| 1))

/-- The address of the entry for an address, or 0. If `alloc`, the pages that are missing are allocated. -/
def walk (r : Ram) (pagetable va : Nat) (alloc : Bool) : Except Fault (Nat × Ram) :=
  if va ≥ MAXVA then .error (.panic "walk") else .ok (walkFrom end_ alloc va 2 pagetable r)

/-- The loop of `mappages`, at address `a`. -/
def mapFrom (pagetable last perm : Nat) : Nat → Nat → Nat → Ram → Except Fault (Int × Ram)
  | 0, _, _, _ => .error .endless
  | fuel + 1, a, pa, r => do
      let (place, r) ← r.walk end_ pagetable a true
      if place = 0 then .ok (-1, r)
      else if r.pte place % 2 = 1 then .error (.panic "remap")
      else
        let r := r.setPte place (PA2PTE pa ||| perm ||| 1)
        if a = last then .ok (0, r)
        else mapFrom pagetable last perm fuel ((a + PGSIZE) % 2 ^ 64) ((pa + PGSIZE) % 2 ^ 64) r

/-- More rounds than there are pages below `MAXVA`. -/
def rounds : Nat := MAXVA / PGSIZE + 1

/-- Create entries for the pages of a range of virtual addresses. -/
def mappages (r : Ram) (pagetable va size pa perm : Nat) : Except Fault (Int × Ram) :=
  mapFrom end_ pagetable (pgRoundDown ((va + size + 2 ^ 64 - 1) % 2 ^ 64)) perm rounds (pgRoundDown va) pa r

/-- The loop of `uvmunmap`, at address `a`. -/
def unmapFrom (pagetable last : Nat) (doFree : Bool) : Nat → Nat → Ram → Except Fault Ram
  | 0, _, _ => .error .endless
  | fuel + 1, a, r => do
      let (place, r) ← r.walk end_ pagetable a false
      if place = 0 then .error (.panic "uvmunmap: walk")
      else if r.pte place % 2 = 0 then .error (.panic "uvmunmap: not mapped")
      else if pteFlags (r.pte place) = 1 then .error (.panic "uvmunmap: not a leaf")
      else do
        let r ← (if doFree then r.kfree end_ (PTE2PA (r.pte place)) else .ok r)
        let r := r.setPte place 0
        if a = last then .ok r else unmapFrom pagetable last doFree fuel ((a + PGSIZE) % 2 ^ 64) r

/-- Remove mappings from a page table. -/
def uvmunmap (r : Ram) (pagetable va size : Nat) (doFree : Bool) : Except Fault Ram :=
  unmapFrom end_ pagetable (pgRoundDown ((va + size + 2 ^ 64 - 1) % 2 ^ 64)) doFree rounds (pgRoundDown va) r

/-- Create an empty page table. -/
def uvmcreate (r : Ram) : Except Fault (Nat × Ram) :=
  let (page, r) := r.kalloc end_
  if page = 0 then .error (.panic "uvmcreate: out of memory") else .ok (page, r.fillPage page 0)

/-! ## The pages of a table -/

/-- The page that an entry refers to. -/
def tableRefs (r : Ram) (t i : Nat) : Option Nat :=
  if i < 512 ∧ r.pte (t + 8 * i) % 2 = 1 then some (PTE2PA (r.pte (t + 8 * i))) else none

/-- The paths to the pages of a table. -/
def TableShape : Set (List Nat) := {path | path.length ≤ 2 ∧ ∀ i ∈ path, i < 512}

/-- The path to the lowest page for a virtual page. -/
def tablePath (n : Nat) : List Nat := [n / 2 ^ 18 % 512, n / 2 ^ 9 % 512]

/-- An entry, if it is valid. -/
def validPte (r : Ram) (t i : Nat) : Option Nat :=
  if r.pte (t + 8 * i) % 2 = 1 then some (r.pte (t + 8 * i)) else none

/-- The leaf entry of a virtual page, if it is valid. -/
def leaf (r : Ram) (root n : Nat) : Option Nat :=
  (descend r.tableRefs root (tablePath n)).bind fun t => r.validPte t (n % 512)

/-- The pages of a table are in use, and no page has two places. -/
structure Tables (r : Ram) (root : Nat) (l : List Nat) : Prop where
  lists : r.Lists end_ l
  unshared : Unshared r.tableRefs root TableShape
  managed : ∀ t ∈ nodes r.tableRefs root TableShape, Manages end_ t ∧ t ∉ l

/-- The bytes of a page are the same. -/
def SamePage (r r' : Ram) (q : Nat) : Prop := ∀ b, q ≤ b → b < q + PGSIZE → r'.mem b = r.mem b

variable {end_} {r r' r₁ : Ram} {root t q pa i n va place value : Nat} {path : List Nat} {l l' l₁ : List Nat}

/-- With a place the shape has the places above it. -/
theorem tableShape_closed : RefTree.Closed TableShape := by
  rintro path i ⟨short, small⟩
  rw [List.length_append] at short
  exact ⟨by omega, fun j member => small j (List.mem_append_left _ member)⟩

theorem tablePath_mem (n : Nat) : tablePath n ∈ TableShape := by
  refine ⟨le_rfl, fun i member => ?_⟩
  simp only [tablePath, List.mem_cons, List.not_mem_nil, or_false] at member
  rcases member with rfl | rfl <;> exact Nat.mod_lt _ (by decide)

/-- A page and its place in the lowest page of the table have the same number. -/
theorem tablePath_inj {n' : Nat} (small : n < 2 ^ 26) (small' : n' < 2 ^ 26) (path : tablePath n = tablePath n')
    (index : n % 512 = n' % 512) : n = n' := by
  simp only [tablePath, List.cons.injEq, and_true] at path
  omega

/-- An entry that is written. -/
theorem pte_setPte_self (r : Ram) (place value : Nat) : (r.setPte place value).pte place = value % 2 ^ 64 :=
  ByteMemory.load_store_self ..

/-- Other entries stay. -/
theorem pte_setPte_apart (apart : q + 8 ≤ place ∨ place + 8 ≤ q) : (r.setPte place value).pte q = r.pte q :=
  ByteMemory.load_store_apart apart

theorem SamePage.refl (r : Ram) (q : Nat) : SamePage r r q := fun _ _ _ => rfl

theorem SamePage.trans (first : SamePage r r₁ q) (second : SamePage r₁ r' q) : SamePage r r' q :=
  fun b low high => (second b low high).trans (first b low high)

/-- The entries of a page that is the same. -/
theorem SamePage.pte (same : SamePage r r' t) (small : i < 512) : r'.pte (t + 8 * i) = r.pte (t + 8 * i) :=
  ByteMemory.load_congr fun b low high => same b (by omega) (by change b < t + 4096; omega)

theorem SamePage.next (same : SamePage r r' q) : r'.next q = r.next q :=
  ByteMemory.load_congr fun b low high => same b low (by change b < q + 4096; omega)

theorem SamePage.tableRefs (same : SamePage r r' t) (i : Nat) : r'.tableRefs t i = r.tableRefs t i := by
  unfold Ram.tableRefs
  by_cases small : i < 512
  · rw [same.pte small]
  · rw [if_neg fun h => small h.1, if_neg fun h => small h.1]

theorem SamePage.validPte (same : SamePage r r' t) (small : i < 512) : r'.validPte t i = r.validPte t i := by
  unfold Ram.validPte
  rw [same.pte small]

theorem index_lt (n : Nat) : n % 512 < 512 := Nat.mod_lt n (by decide)

/-- A store into an entry of one page leaves the others. -/
theorem samePage_setPte (manages : Manages end_ t) (other : Manages end_ q) (different : q ≠ t) (small : i < 512)
    (value : Nat) : SamePage r (r.setPte (t + 8 * i) value) q := by
  intro b low high
  have apart := pages_apart manages other different
  change b < q + 4096 at high
  exact ByteMemory.store_apart (by omega)

/-- `kalloc` takes the first page of the free list, and changes no other page. -/
theorem kalloc_page (lists : r.Lists end_ (pa :: l)) : (r.kalloc end_).1 = pa ∧ (r.kalloc end_).2.Lists end_ l ∧
    ∀ q, Manages end_ q → q ≠ pa → SamePage r (r.kalloc end_).2 q := by
  obtain ⟨r', ran, lists', -⟩ := lists.kalloc_cons
  have first : r.freelist = pa := lists.list.of_cons.1
  have manages := lists.managed pa List.mem_cons_self
  refine ⟨by rw [ran], by rw [ran]; exact lists', fun q other different b low high => ?_⟩
  have real : pa ≠ 0 := manages.ne_zero
  have apart := pages_apart manages other different
  have inTable := (entry_bounds (r := r.setFreelist (r.next pa)) lists.table manages).2
  change b < q + 4096 at high
  unfold kalloc
  rw [if_neg (by rw [first]; exact real), first]
  refine (ByteMemory.fill_apart (by change b < pa ∨ pa + 4096 ≤ b; omega)).trans ?_
  exact ByteMemory.store_apart (.inr (by have start := other.1; omega))

/-- A page of zeroes has no valid entry. -/
theorem pte_fillPage (fits : i < 512) : (r.fillPage pa 0).pte (pa + 8 * i) = 0 := by
  have zero : ∀ k a, pa ≤ a → a + k ≤ pa + 4096 → ByteMemory.load (r.fillPage pa 0).mem k a = 0 := by
    intro k
    induction k with
    | zero => exact fun _ _ _ => rfl
    | succ k ih =>
        intro a low high
        have byte : (r.fillPage pa 0).mem a = 0 := if_pos ⟨low, by change a < pa + 4096; omega⟩
        rw [ByteMemory.load, byte, ih (a + 1) (by omega) (by omega)]
        rfl
  exact zero 8 _ (by omega) (by omega)

/-- An entry for a page of a table refers to it. -/
theorem entry_refers (manages : Manages end_ pa) :
    (PA2PTE pa ||| 1) % 2 ^ 64 % 2 = 1 ∧ PTE2PA ((PA2PTE pa ||| 1) % 2 ^ 64) = pa := by
  obtain ⟨-, high, aligned⟩ := manages.bounds
  have sum : PA2PTE pa ||| 1 = PA2PTE pa + 1 := by
    unfold PA2PTE
    rw [Nat.mul_comm]
    exact (Nat.two_pow_add_eq_or_of_lt (by decide) _).symm
  rw [sum]
  unfold PTE2PA PA2PTE
  omega

namespace Tables

variable (tables : r.Tables end_ root l)
include tables

/-- The pages of the table come from the allocator, and none of them is free. -/
theorem page_managed (inShape : path ∈ TableShape) (found : descend r.tableRefs root path = some t) :
    Manages end_ t ∧ t ∉ l := tables.managed t ⟨path, inShape, found⟩

/-- The pages of the table are the same, and none of them is free. -/
theorem frame (lists : r'.Lists end_ l') (same : ∀ t ∈ nodes r.tableRefs root TableShape, SamePage r r' t)
    (inUse : ∀ t ∈ nodes r.tableRefs root TableShape, t ∉ l') :
    r'.Tables end_ root l' ∧
      (∀ {path}, path ∈ TableShape → descend r'.tableRefs root path = descend r.tableRefs root path) ∧
      ∀ n, r'.leaf root n = r.leaf root n := by
  have descends {path : List Nat} (inShape : path ∈ TableShape) :
      descend r'.tableRefs root path = descend r.tableRefs root path :=
    RefTree.descend_congr tableShape_closed (fun {before j last} below found =>
      (same last ⟨before, tableShape_closed below, found⟩).tableRefs j) inShape
  refine ⟨⟨lists, ?_, ?_⟩, descends, fun n => ?_⟩
  · exact tables.unshared.mono fun inShape found => descends inShape ▸ found
  · rintro t ⟨path, inShape, found⟩
    rw [descends inShape] at found
    exact ⟨(tables.page_managed inShape found).1, inUse t ⟨path, inShape, found⟩⟩
  · unfold leaf
    rw [descends (tablePath_mem n)]
    cases found : descend r.tableRefs root (tablePath n) with
    | none => rw [Option.bind_none, Option.bind_none]
    | some t => rw [Option.bind_some, Option.bind_some, (same t ⟨_, tablePath_mem n, found⟩).validPte (index_lt n)]

end Tables

/-! ## `walk` -/

/-- A table has got pages, and translates as before. -/
structure Widens (end_ root : Nat) (r : Ram) (l : List Nat) (r' : Ram) (l' : List Nat) : Prop where
  tables : r'.Tables end_ root l'
  suffix : l' <:+ l
  kept : ∀ {path t}, path ∈ TableShape → descend r.tableRefs root path = some t →
    descend r'.tableRefs root path = some t
  taken : ∀ t ∈ nodes r'.tableRefs root TableShape, t ∈ nodes r.tableRefs root TableShape ∨ t ∈ l
  leaf : ∀ n, r'.leaf root n = r.leaf root n
  other : ∀ q, Manages end_ q → q ∉ l → q ∉ nodes r.tableRefs root TableShape → SamePage r r' q

namespace Widens

theorem refl (tables : r.Tables end_ root l) : Widens end_ root r l r l where
  tables := tables
  suffix := List.suffix_refl l
  kept _ found := found
  taken _ member := .inl member
  leaf _ := rfl
  other q _ _ _ := .refl r q

/-- Tables that grow twice. -/
theorem trans (first : Widens end_ root r l r₁ l₁) (second : Widens end_ root r₁ l₁ r' l') :
    Widens end_ root r l r' l' where
  tables := second.tables
  suffix := second.suffix.trans first.suffix
  kept inShape found := second.kept inShape (first.kept inShape found)
  taken t member := by
    rcases second.taken t member with before | free
    · exact first.taken t before
    · exact .inr (first.suffix.mem free)
  leaf n := (second.leaf n).trans (first.leaf n)
  other q manages used apart := by
    refine (first.other q manages used apart).trans (second.other q manages ?_ ?_)
    · exact fun member => used (first.suffix.mem member)
    · intro member
      rcases first.taken q member with before | free
      · exact apart before
      · exact used free

end Widens

/-- Entry `i` of the page `t` refers to the page `pa`, which has been allocated and filled with zeroes. -/
structure Links (end_ : Nat) (r : Ram) (pa : Nat) (l : List Nat) (t i : Nat) (r' : Ram) : Prop where
  managed : Manages end_ t
  manages : Manages end_ pa
  small : i < 512
  entry : r'.pte (t + 8 * i) = (PA2PTE pa ||| 1) % 2 ^ 64
  entry_ne : ∀ {j}, j < 512 → j ≠ i → r'.pte (t + 8 * j) = r.pte (t + 8 * j)
  zero : ∀ {j}, j < 512 → r'.pte (pa + 8 * j) = 0
  page : ∀ q, Manages end_ q → q ≠ pa → q ≠ t → SamePage r r' q
  lists : r'.Lists end_ l

/-- `kalloc`, `memset` and the store of the entry. -/
theorem kalloc_links (lists : r.Lists end_ (pa :: l)) (managed : Manages end_ t) (used : t ∉ pa :: l)
    (small : i < 512) :
    Links end_ r pa l t i (((r.kalloc end_).2.fillPage pa 0).setPte (t + 8 * i) (PA2PTE pa ||| 1)) := by
  obtain ⟨-, lists₁, same₁⟩ := kalloc_page lists
  have manages := lists.managed pa List.mem_cons_self
  have fresh := (List.nodup_cons.mp lists.list.nodup).1
  have apart : pa ≠ t := by
    rintro rfl
    exact used List.mem_cons_self
  have filled (q : Nat) (other : Manages end_ q) (different : q ≠ pa) :
      SamePage (r.kalloc end_).2 ((r.kalloc end_).2.fillPage pa 0) q := by
    intro b low high
    have far := pages_apart manages other different
    change b < q + 4096 at high
    exact ByteMemory.fill_apart (by change b < pa ∨ pa + 4096 ≤ b; omega)
  have stored (q : Nat) (other : Manages end_ q) (different : q ≠ t) :
      SamePage ((r.kalloc end_).2.fillPage pa 0)
        (((r.kalloc end_).2.fillPage pa 0).setPte (t + 8 * i) (PA2PTE pa ||| 1)) q :=
    samePage_setPte managed other different small _
  refine ⟨managed, manages, small, pte_setPte_self .., fun {j} inside different => ?_, fun {j} inside => ?_,
    fun q other first second => ?_, lists₁.table, lists₁.list.congr fun q member => ?_, lists₁.managed⟩
  · rw [pte_setPte_apart (by omega)]
    exact ((same₁ t managed apart.symm).trans (filled t managed apart.symm)).pte inside
  · rw [(stored pa manages apart).pte inside, pte_fillPage inside]
  · exact ((same₁ q other first).trans (filled q other first)).trans (stored q other second)
  · have other := lists₁.managed q member
    have first : q ≠ pa := by
      rintro rfl
      exact fresh member
    have second : q ≠ t := by
      rintro rfl
      exact used (List.mem_cons_of_mem _ member)
    exact ((filled q other first).trans (stored q other second)).next

section Links

variable (tables : r.Tables end_ root (pa :: l)) (above : descend r.tableRefs root path = some t)
  (inShape : path ++ [i] ∈ TableShape) (vacant : r.pte (t + 8 * i) % 2 ≠ 1) (linked : Links end_ r pa l t i r')
include tables above inShape vacant linked

/-- The tree of the pages has got a leaf. -/
theorem Links.tree : RefTree.Links r.tableRefs r'.tableRefs root TableShape path i t pa := by
  refine ⟨⟨tableShape_closed, tables.unshared, above, inShape, ?_⟩, ?_, ?_, ?_, ?_⟩
  · intro before j last below found other
    obtain ⟨managed', used'⟩ := tables.page_managed (tableShape_closed below) found
    have notNew : last ≠ pa := by
      rintro rfl
      exact used' List.mem_cons_self
    by_cases here : last = t
    · have different : j ≠ i := fun index => other ⟨here, index⟩
      have inside : j < 512 := below.2 j (by simp)
      unfold tableRefs
      rw [here, linked.entry_ne inside different]
    · exact (linked.page last managed' notNew here).tableRefs j
  · exact if_neg fun h => vacant h.2
  · rintro ⟨other, inShape', found⟩
    exact (tables.page_managed inShape' found).2 List.mem_cons_self
  · unfold tableRefs
    rw [linked.entry, if_pos ⟨linked.small, (entry_refers linked.manages).1⟩, (entry_refers linked.manages).2]
  · intro j
    unfold tableRefs
    by_cases inside : j < 512
    · rw [linked.zero inside, if_neg (by simp)]
    · rw [if_neg fun h => inside h.1]

/-- The new page has no valid entry, so nothing else is translated than before. -/
theorem Links.leaf (n : Nat) : r'.leaf root n = r.leaf root n := by
  have tree := linked.tree tables above inShape vacant
  unfold Ram.leaf
  rw [tree.descend (tablePath_mem n)]
  split
  · next new =>
      have before : descend r.tableRefs root (tablePath n) = none := by
        rw [new, RefTree.descend_concat, above, Option.bind_some]
        exact tree.vacant
      have invalid : r'.validPte pa (n % 512) = none := by
        unfold validPte
        rw [linked.zero (index_lt n)]
        rfl
      rw [before, Option.bind_some, invalid, Option.bind_none]
  · cases found : descend r.tableRefs root (tablePath n) with
    | none => rw [Option.bind_none, Option.bind_none]
    | some t' =>
        obtain ⟨managed', used'⟩ := tables.page_managed (tablePath_mem n) found
        have notNew : t' ≠ pa := by
          rintro rfl
          exact used' List.mem_cons_self
        have different : t' ≠ t := by
          rintro rfl
          have same := tables.unshared (tablePath_mem n) (tableShape_closed inShape) found above
          have short := inShape.1
          rw [← same, List.length_append] at short
          simp [tablePath] at short
        rw [Option.bind_some, Option.bind_some, (linked.page t' managed' notNew different).validPte (index_lt n)]

end Links

/-- A page is allocated and linked where an entry was not valid. -/
theorem Tables.link (tables : r.Tables end_ root (pa :: l)) (above : descend r.tableRefs root path = some t)
    (inShape : path ++ [i] ∈ TableShape) (vacant : r.pte (t + 8 * i) % 2 ≠ 1) :
    Widens end_ root r (pa :: l) (((r.kalloc end_).2.fillPage pa 0).setPte (t + 8 * i) (PA2PTE pa ||| 1)) l ∧
      descend (((r.kalloc end_).2.fillPage pa 0).setPte (t + 8 * i) (PA2PTE pa ||| 1)).tableRefs root (path ++ [i]) =
        some pa := by
  obtain ⟨managed, used⟩ := tables.page_managed (tableShape_closed inShape) above
  have linked := kalloc_links tables.lists managed used (inShape.2 i (by simp))
  have tree := linked.tree tables above inShape vacant
  have fresh := (List.nodup_cons.mp tables.lists.list.nodup).1
  refine ⟨⟨⟨linked.lists, tree.unshared_after, ?_⟩, List.suffix_cons pa l,
    fun inShape found => tree.grows inShape found, ?_, linked.leaf tables above inShape vacant, ?_⟩, ?_⟩
  · intro node member
    rw [tree.nodes_eq] at member
    rcases member with rfl | old
    · exact ⟨linked.manages, fresh⟩
    · obtain ⟨managed', used'⟩ := tables.managed node old
      exact ⟨managed', fun free => used' (List.mem_cons_of_mem _ free)⟩
  · intro node member
    rw [tree.nodes_eq] at member
    rcases member with rfl | old
    · exact .inr List.mem_cons_self
    · exact .inl old
  · intro q other used' apart'
    refine linked.page q other ?_ ?_
    · rintro rfl
      exact used' List.mem_cons_self
    · rintro rfl
      exact apart' ⟨path, tableShape_closed inShape, above⟩
  · rw [tree.descend inShape, if_pos rfl]

/-- What a walk finds: the entry in the lowest page, or nothing because no page was left. -/
def WalkEnds (r : Ram) (root va place : Nat) (l : List Nat) : Prop :=
  (place = 0 ∧ l = []) ∨
    ∃ t, descend r.tableRefs root (tablePath (va / PGSIZE)) = some t ∧ place = t + 8 * (va / PGSIZE % 512)

/-- The indices of the levels that are left. -/
def indices (va : Nat) : Nat → List Nat
  | 0 => []
  | level + 1 => PX (level + 1) va :: indices va level

theorem indices_two (va : Nat) : [] ++ indices va 2 = tablePath (va / PGSIZE) := by
  show [va / 2 ^ 30 % 512, va / 2 ^ 21 % 512] = [va / 4096 / 2 ^ 18 % 512, va / 4096 / 2 ^ 9 % 512]
  have high : va / 2 ^ 30 = va / 4096 / 2 ^ 18 := by omega
  have low : va / 2 ^ 21 = va / 4096 / 2 ^ 9 := by omega
  rw [high, low]

theorem PX_zero (va : Nat) : PX 0 va = va / PGSIZE % 512 := rfl

theorem PX_lt (level va : Nat) : PX level va < 512 := Nat.mod_lt _ (by decide)

/-- An entry that is not valid refers to nothing. -/
theorem tableRefs_valid (small : i < 512) (valid : r.pte (t + 8 * i) % 2 = 1) :
    r.tableRefs t i = some (PTE2PA (r.pte (t + 8 * i))) := if_pos ⟨small, valid⟩

/-- An entry that is not valid leads nowhere. -/
theorem tableRefs_invalid (invalid : r.pte (t + 8 * i) % 2 ≠ 1) : r.tableRefs t i = none :=
  if_neg fun h => invalid h.2

/-- The next page on the path. -/
theorem next_level {next : Nat} (above : descend r.tableRefs root path = some t)
    (refers : r.tableRefs t i = some next) : descend r.tableRefs root (path ++ [i]) = some next := by
  rw [RefTree.descend_concat, above, Option.bind_some, refers]

section Walk

variable {level : Nat} (above : descend r.tableRefs root path = some t)
  (rest : path ++ indices va level = tablePath (va / PGSIZE))
include above rest

/-- A walk that allocates. -/
theorem walkFrom_alloc (tables : r.Tables end_ root l) : ∃ l',
    Widens end_ root r l (walkFrom end_ true va level t r).2 l' ∧
      WalkEnds (walkFrom end_ true va level t r).2 root va (walkFrom end_ true va level t r).1 l' := by
  induction level generalizing r t path l with
  | zero =>
      refine ⟨l, .refl tables, .inr ⟨t, ?_, ?_⟩⟩
      · rw [← rest, indices, List.append_nil]
        exact above
      · rw [walkFrom, PX_zero]
  | succ level ih =>
      have onPath : (path ++ [PX (level + 1) va]) ++ indices va level = tablePath (va / PGSIZE) := by
        rw [← rest, indices, List.append_assoc, List.singleton_append]
      have inShape : path ++ [PX (level + 1) va] ∈ TableShape := by
        have whole := tablePath_mem (va / PGSIZE)
        rw [← onPath] at whole
        refine ⟨?_, fun i member => whole.2 i (List.mem_append_left _ member)⟩
        have short := whole.1
        rw [List.length_append] at short
        omega
      rw [walkFrom]
      simp only [Bool.not_true, Bool.false_eq_true, if_false]
      by_cases valid : r.pte (t + 8 * PX (level + 1) va) % 2 = 1
      · rw [if_pos valid]
        exact ih (next_level above (tableRefs_valid (PX_lt ..) valid)) onPath tables
      · rw [if_neg valid]
        cases l with
        | nil =>
            rw [tables.lists.kalloc_nil, if_pos rfl]
            exact ⟨[], .refl tables, .inl ⟨rfl, rfl⟩⟩
        | cons pa l =>
            obtain ⟨first, -, -⟩ := kalloc_page tables.lists
            have real : pa ≠ 0 := (tables.lists.managed pa List.mem_cons_self).ne_zero
            obtain ⟨widens, found⟩ := tables.link above inShape valid
            rw [if_neg (by rw [first]; exact real), first]
            obtain ⟨l', widens', ends⟩ := ih found onPath widens.tables
            exact ⟨l', widens.trans widens', ends⟩

/-- A walk that does not allocate. -/
theorem walkFrom_find : walkFrom end_ false va level t r =
    (((descend r.tableRefs root (tablePath (va / PGSIZE))).map fun t => t + 8 * (va / PGSIZE % 512)).getD 0, r) := by
  induction level generalizing t path with
  | zero =>
      rw [indices, List.append_nil] at rest
      rw [walkFrom, ← rest, above, PX_zero]
      rfl
  | succ level ih =>
      have onPath : (path ++ [PX (level + 1) va]) ++ indices va level = tablePath (va / PGSIZE) := by
        rw [← rest, indices, List.append_assoc, List.singleton_append]
      rw [walkFrom]
      by_cases valid : r.pte (t + 8 * PX (level + 1) va) % 2 = 1
      · simp only
        rw [if_pos valid]
        exact ih (next_level above (tableRefs_valid (PX_lt ..) valid)) onPath
      · have none : descend r.tableRefs root (tablePath (va / PGSIZE)) = none := by
          rw [← onPath, RefTree.descend_append, RefTree.descend_concat, above, Option.bind_some,
            tableRefs_invalid valid, Option.bind_none]
        simp only
        rw [if_neg valid, if_pos (by decide), none, Option.map_none, Option.getD_none]

end Walk

/-- `walk` with `alloc` returns the entry in the lowest page, or 0 where no page is left. -/
theorem walk_alloc (tables : r.Tables end_ root l) (small : va < MAXVA) : ∃ place r' l',
    r.walk end_ root va true = .ok (place, r') ∧ Widens end_ root r l r' l' ∧ WalkEnds r' root va place l' := by
  have top : descend r.tableRefs root [] = some root := rfl
  obtain ⟨l', widens, ends⟩ := walkFrom_alloc top (indices_two va) tables
  have ran : r.walk end_ root va true = .ok (walkFrom end_ true va 2 root r) := if_neg (not_le.mpr small)
  rw [ran]
  generalize walkFrom end_ true va 2 root r = found at widens ends
  exact ⟨found.1, found.2, l', rfl, widens, ends⟩

/-- `walk` without `alloc` changes nothing. -/
theorem walk_find (r : Ram) (root : Nat) (small : va < MAXVA) : r.walk end_ root va false =
    .ok (((descend r.tableRefs root (tablePath (va / PGSIZE))).map
      fun t => t + 8 * (va / PGSIZE % 512)).getD 0, r) := by
  have top : descend r.tableRefs root [] = some root := rfl
  unfold walk
  rw [if_neg (not_le.mpr small), walkFrom_find top (indices_two va)]

end Ram

end Riscv2os.Xv7
