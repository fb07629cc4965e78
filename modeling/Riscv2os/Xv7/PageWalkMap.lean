import Riscv2os.Xv7.PageWalk

/-!
# Mapping and unmapping ranges

What `mappages` and `uvmunmap` do to the leaf entries of a table: those of the range change, and no others. When
memory runs out, `mappages` has mapped the pages of a beginning of the range.
-/

namespace Riscv2os.Xv7

open Riscv2os.Std
open RefTree (descend nodes Unshared)

namespace Ram

variable {end_ : Nat} {r r' r₁ : Ram} {root t q pa i n m k va place value perm fuel : Nat} {path : List Nat}
  {l l' l₁ : List Nat}

/-- The entry behind a store. -/
def stored (value : Nat) : Option Nat := if value % 2 ^ 64 % 2 = 1 then some (value % 2 ^ 64) else none

/-- A store into a leaf entry. -/
theorem Tables.setLeaf (tables : r.Tables end_ root l) (small : n < 2 ^ 26)
    (found : descend r.tableRefs root (tablePath n) = some t) (value : Nat) :
    (r.setPte (t + 8 * (n % 512)) value).Tables end_ root l ∧
      (∀ {path}, path ∈ TableShape →
        descend (r.setPte (t + 8 * (n % 512)) value).tableRefs root path = descend r.tableRefs root path) ∧
      (∀ n' < 2 ^ 26, (r.setPte (t + 8 * (n % 512)) value).leaf root n' =
        if n' = n then stored value else r.leaf root n') ∧
      ∀ q, Manages end_ q → q ≠ t → SamePage r (r.setPte (t + 8 * (n % 512)) value) q := by
  obtain ⟨manages, used⟩ := tables.page_managed (tablePath_mem n) found
  have page {q : Nat} (other : Manages end_ q) (different : q ≠ t) :
      SamePage r (r.setPte (t + 8 * (n % 512)) value) q := samePage_setPte manages other different (index_lt n) value
  have descends {path : List Nat} (inShape : path ∈ TableShape) :
      descend (r.setPte (t + 8 * (n % 512)) value).tableRefs root path = descend r.tableRefs root path := by
    refine RefTree.descend_congr tableShape_closed (fun {before j last} below above => ?_) inShape
    obtain ⟨managed, -⟩ := tables.page_managed (tableShape_closed below) above
    have different : last ≠ t := by
      rintro rfl
      -- The lowest pages refer to no page of the table.
      have same := tables.unshared (tableShape_closed below) (tablePath_mem n) above found
      have short := below.1
      rw [same, List.length_append] at short
      simp [tablePath] at short
    exact (page managed different).tableRefs j
  refine ⟨⟨⟨tables.lists.table, ?_, tables.lists.managed⟩, ?_, ?_⟩, descends, ?_, fun q => page⟩
  · refine tables.lists.list.congr fun q member => (page (tables.lists.managed q member) ?_).next
    rintro rfl
    exact used member
  · exact tables.unshared.mono fun inShape there => descends inShape ▸ there
  · rintro q ⟨path, inShape, there⟩
    rw [descends inShape] at there
    exact tables.page_managed inShape there
  · intro n' small'
    unfold leaf
    rw [descends (tablePath_mem n')]
    by_cases same : n' = n
    · rw [if_pos same, same, found, Option.bind_some]
      unfold validPte stored
      rw [pte_setPte_self]
    · rw [if_neg same]
      cases other : descend r.tableRefs root (tablePath n') with
      | none => rw [Option.bind_none, Option.bind_none]
      | some t' =>
          rw [Option.bind_some, Option.bind_some]
          obtain ⟨managed, -⟩ := tables.page_managed (tablePath_mem n') other
          by_cases shared : t' = t
          · subst shared
            have index : n' % 512 ≠ n % 512 := fun index =>
              same (tablePath_inj small' small
                (tables.unshared (tablePath_mem n') (tablePath_mem n) other found) index)
            unfold validPte
            rw [pte_setPte_apart (by omega)]
          · rw [(page managed shared).validPte (index_lt n')]

/-- `kfree` of a page outside of the table. -/
theorem Tables.kfree (tables : r.Tables end_ root l) (manages : Manages end_ pa) (fresh : pa ∉ l)
    (apart : pa ∉ nodes r.tableRefs root TableShape) : ∃ r', r.kfree end_ pa = .ok r' ∧
      r'.Tables end_ root (pa :: l) ∧
      (∀ {path}, path ∈ TableShape → descend r'.tableRefs root path = descend r.tableRefs root path) ∧
      (∀ n, r'.leaf root n = r.leaf root n) ∧ ∀ q, Manages end_ q → q ≠ pa → SamePage r r' q := by
  obtain ⟨r', ran, lists, -⟩ := tables.lists.kfree manages fresh
  have page {q : Nat} (other : Manages end_ q) (different : q ≠ pa) : SamePage r r' q := by
    intro b low high
    have far := pages_apart manages other different
    have inTable := (entry_bounds (r := ((r.fillPage pa 1).setNext pa r.freelist).setFreelist pa)
      tables.lists.table manages).2
    have start := other.1
    change b < q + 4096 at high
    unfold Ram.kfree at ran
    split at ran
    · cases ran
    · cases ran
      refine (ByteMemory.store_apart (by omega)).trans ?_
      refine (ByteMemory.store_apart (by omega)).trans ?_
      exact ByteMemory.fill_apart (by change b < pa ∨ pa + 4096 ≤ b; omega)
  have inUse : ∀ t ∈ nodes r.tableRefs root TableShape, t ∉ pa :: l := by
    intro t member free
    rcases List.mem_cons.mp free with rfl | free
    · exact apart member
    · exact (tables.managed t member).2 free
  obtain ⟨tables', descends, leaf⟩ := tables.frame lists (fun t member =>
    page (tables.managed t member).1 fun same => apart (same ▸ member)) inUse
  exact ⟨r', ran, tables', descends, leaf, fun q => page⟩

/-! ## `mappages` -/

/-- The entry that `mappages` creates for the page `k` of a range. -/
def mapEntry (pa perm k : Nat) : Nat := (PA2PTE ((pa + k * PGSIZE) % 2 ^ 64) ||| perm ||| 1) % 2 ^ 64

theorem mapEntry_valid (pa perm k : Nat) : mapEntry pa perm k % 2 = 1 := by
  unfold mapEntry
  rw [Nat.mod_mod_of_dvd _ (by decide : 2 ∣ 2 ^ 64), Nat.or_mod_two_eq_one]
  exact .inr rfl

/-- The entries of the range behind its first page. -/
theorem mapEntry_next (pa perm k : Nat) : mapEntry ((pa + PGSIZE) % 2 ^ 64) perm k = mapEntry pa perm (k + 1) := by
  have same : ((pa + PGSIZE) % 2 ^ 64 + k * PGSIZE) % 2 ^ 64 = (pa + (k + 1) * PGSIZE) % 2 ^ 64 := by
    rw [Nat.mod_add_mod]
    congr 1
    ring
  unfold mapEntry
  rw [same]

/-- The entries of `k` pages from `n` on are new. -/
structure MapsRange (end_ root : Nat) (r : Ram) (l : List Nat) (n k : Nat) (entry : Nat → Nat) (r' : Ram)
    (l' : List Nat) : Prop where
  tables : r'.Tables end_ root l'
  suffix : l' <:+ l
  taken : ∀ t ∈ nodes r'.tableRefs root TableShape, t ∈ nodes r.tableRefs root TableShape ∨ t ∈ l
  leaf : ∀ n' < 2 ^ 26, r'.leaf root n' = if n ≤ n' ∧ n' < n + k then some (entry (n' - n)) else r.leaf root n'
  other : ∀ q, Manages end_ q → q ∉ l → q ∉ nodes r.tableRefs root TableShape → SamePage r r' q

theorem Widens.mapsNone (widens : Widens end_ root r l r' l') (entry : Nat → Nat) :
    MapsRange end_ root r l n 0 entry r' l' where
  tables := widens.tables
  suffix := widens.suffix
  taken := widens.taken
  leaf n' _ := by rw [if_neg (by omega), widens.leaf]
  other := widens.other

/-- The first page, and the pages behind it. -/
theorem Widens.mapsNext {entry entry' : Nat → Nat} (widens : Widens end_ root r l r₁ l₁) (small : n < 2 ^ 26)
    (found : descend r₁.tableRefs root (tablePath n) = some t)
    (first : stored value = some (entry 0)) (next : ∀ k, entry' k = entry (k + 1))
    (rest : MapsRange end_ root (r₁.setPte (t + 8 * (n % 512)) value) l₁ (n + 1) k entry' r' l') :
    MapsRange end_ root r l n (k + 1) entry r' l' := by
  obtain ⟨-, descends, leaves, pages⟩ := widens.tables.setLeaf small found value
  have same_nodes {q : Nat} : q ∈ nodes (r₁.setPte (t + 8 * (n % 512)) value).tableRefs root TableShape ↔
      q ∈ nodes r₁.tableRefs root TableShape :=
    exists_congr fun path => and_congr_right fun inShape => by rw [descends inShape]
  have inTable : t ∈ nodes r₁.tableRefs root TableShape := ⟨_, tablePath_mem n, found⟩
  refine ⟨rest.tables, rest.suffix.trans widens.suffix, fun q member => ?_, fun n' small' => ?_,
    fun q manages used apart => ?_⟩
  · rcases rest.taken q member with before | free
    · exact widens.taken q (same_nodes.mp before)
    · exact .inr (widens.suffix.mem free)
  · rw [rest.leaf n' small', leaves n' small', widens.leaf]
    by_cases here : n' = n
    · subst here
      rw [if_neg (by omega), if_pos rfl, if_pos (by omega), first, Nat.sub_self]
    · rw [if_neg here]
      by_cases later : n + 1 ≤ n' ∧ n' < n + 1 + k
      · rw [if_pos later, if_pos (by omega), next]
        congr 2
        omega
      · rw [if_neg later, if_neg (by omega)]
  · have notTable : q ≠ t := by
      rintro rfl
      rcases widens.taken q inTable with before | free
      · exact apart before
      · exact used free
    refine (widens.other q manages used apart).trans ((pages q manages notTable).trans (rest.other q manages ?_ ?_))
    · exact fun member => used (widens.suffix.mem member)
    · intro member
      rcases widens.taken q (same_nodes.mp member) with before | free
      · exact apart before
      · exact used free

/-- How `mappages` ends on the pages from `n` to `m`. -/
inductive MapEnds (end_ root : Nat) (r : Ram) (l : List Nat) (n m pa perm : Nat) : Except Fault (Int × Ram) → Prop where
  /-- All pages are mapped. -/
  | mapped {r' : Ram} {l' : List Nat} (vacant : ∀ n', n ≤ n' → n' ≤ m → r.leaf root n' = none)
      (maps : MapsRange end_ root r l n (m + 1 - n) (mapEntry pa perm) r' l') :
      MapEnds end_ root r l n m pa perm (.ok (0, r'))
  /-- There was no page left for the table. -/
  | full {r' : Ram} {k : Nat} (vacant : ∀ n', n ≤ n' → n' < n + k → r.leaf root n' = none) (few : n + k ≤ m)
      (maps : MapsRange end_ root r l n k (mapEntry pa perm) r' []) : MapEnds end_ root r l n m pa perm (.ok (-1, r'))
  /-- A page was mapped already. -/
  | remap {n' : Nat} (within : n ≤ n' ∧ n' ≤ m) (taken : r.leaf root n' ≠ none) :
      MapEnds end_ root r l n m pa perm (.error (.panic "remap"))

/-- The loop of `mappages`, by induction on the pages that are left. -/
theorem mapFrom_ends (tables : r.Tables end_ root l) (ordered : n ≤ m) (small : m < 2 ^ 26) (enough : m < n + fuel)
    (narrow : pa < 2 ^ 64) :
    MapEnds end_ root r l n m pa perm (mapFrom end_ root (m * PGSIZE) perm fuel (n * PGSIZE) pa r) := by
  induction fuel generalizing n pa r l with
  | zero => omega
  | succ fuel ih =>
      have page : n * PGSIZE / PGSIZE = n := Nat.mul_div_cancel n (by decide)
      have below : n * PGSIZE < MAXVA := by
        change n * 4096 < 2 ^ 38
        omega
      obtain ⟨place, r₁, l₁, ran, widens, ends⟩ := walk_alloc tables below
      rw [WalkEnds, page] at ends
      rw [mapFrom, ran, ok_bind]
      simp only
      rcases ends with ⟨rfl, rfl⟩ | ⟨t, found, rfl⟩
      · rw [if_pos rfl]
        exact .full (k := 0) (fun n' low high => by omega) ordered (widens.mapsNone _)
      · have real : t + 8 * (n % 512) ≠ 0 := by
          have positive := (widens.tables.page_managed (tablePath_mem n) found).1.ne_zero
          omega
        have leaf : r.leaf root n = r₁.validPte t (n % 512) := by
          rw [← widens.leaf n, Ram.leaf, found, Option.bind_some]
        rw [if_neg real]
        by_cases taken : r₁.pte (t + 8 * (n % 512)) % 2 = 1
        · rw [if_pos taken]
          refine .remap (⟨le_rfl, ordered⟩ : n ≤ n ∧ n ≤ m) ?_
          rw [leaf, validPte, if_pos taken]
          exact Option.some_ne_none _
        rw [if_neg taken]
        have vacant : r.leaf root n = none := by rw [leaf, validPte, if_neg taken]
        have first : stored (PA2PTE pa ||| perm ||| 1) = some (mapEntry pa perm 0) := by
          have value : (PA2PTE pa ||| perm ||| 1) % 2 ^ 64 = mapEntry pa perm 0 := by
            rw [mapEntry, Nat.zero_mul, Nat.add_zero, Nat.mod_eq_of_lt narrow]
          rw [stored, value, if_pos (mapEntry_valid ..)]
        have next := mapEntry_next pa perm
        have n_lt : n < 2 ^ 26 := by omega
        obtain ⟨tables₂, -, leaves, -⟩ := widens.tables.setLeaf n_lt found (PA2PTE pa ||| perm ||| 1)
        by_cases last : n * PGSIZE = m * PGSIZE
        · have same : n = m := Nat.eq_of_mul_eq_mul_right (by decide) last
          subst same
          rw [if_pos last]
          refine @MapEnds.mapped _ _ _ _ _ _ _ _ _ l₁ (fun n' low high => ?_) ?_
          · have here : n' = n := by omega
            rw [here, vacant]
          · have one : n + 1 - n = 0 + 1 := by omega
            rw [one]
            exact widens.mapsNext n_lt found first next ((Widens.refl tables₂).mapsNone _)
        · have more : n + 1 ≤ m := by
            by_contra done
            have same : n = m := by omega
            exact last (same ▸ rfl)
          have address : (n * PGSIZE + PGSIZE) % 2 ^ 64 = (n + 1) * PGSIZE := by
            change (n * 4096 + 4096) % 2 ^ 64 = (n + 1) * 4096
            omega
          rw [if_neg last, address]
          have rest := ih tables₂ more (by omega) (Nat.mod_lt (pa + PGSIZE) (by decide : 0 < 2 ^ 64))
          have before {n' : Nat} (low : n < n') (high : n' ≤ m) :
              (r₁.setPte (t + 8 * (n % 512)) (PA2PTE pa ||| perm ||| 1)).leaf root n' = r.leaf root n' := by
            rw [leaves n' (by omega), if_neg (by omega), widens.leaf]
          generalize mapFrom end_ root (m * PGSIZE) perm fuel ((n + 1) * PGSIZE) ((pa + PGSIZE) % 2 ^ 64)
            (r₁.setPte (t + 8 * (n % 512)) (PA2PTE pa ||| perm ||| 1)) = result at rest
          cases rest with
          | @mapped r' l' unmapped maps =>
              refine @MapEnds.mapped _ _ _ _ _ _ _ _ _ l' (fun n' low high => ?_) ?_
              · by_cases here : n' = n
                · rw [here, vacant]
                · rw [← before (by omega) high, unmapped n' (by omega) high]
              · have count : m + 1 - n = m + 1 - (n + 1) + 1 := by omega
                rw [count]
                exact widens.mapsNext n_lt found first next maps
          | @full r' k unmapped few maps =>
              refine .full (k := k + 1) (fun n' low high => ?_) (by omega) (widens.mapsNext n_lt found first next maps)
              by_cases here : n' = n
              · rw [here, vacant]
              · rw [← before (by omega) (by omega), unmapped n' (by omega) (by omega)]
          | @remap n' within taken' =>
              refine .remap (⟨by omega, within.2⟩ : n ≤ n' ∧ n' ≤ m) ?_
              rw [← before (by omega) within.2]
              exact taken'

/-! ## `uvmunmap` -/

/-- The frames of the pages from `n` to `m` can be freed: they are in use outside of the table, each once. -/
structure Freeable (end_ root : Nat) (r : Ram) (l : List Nat) (n m : Nat) : Prop where
  frame : ∀ {n' e}, n ≤ n' → n' ≤ m → r.leaf root n' = some e →
    Manages end_ (PTE2PA e) ∧ PTE2PA e ∉ l ∧ PTE2PA e ∉ nodes r.tableRefs root TableShape
  once : ∀ {n' n'' e e'}, n ≤ n' → n' ≤ m → n ≤ n'' → n'' ≤ m → r.leaf root n' = some e → r.leaf root n'' = some e' →
    PTE2PA e = PTE2PA e' → n' = n''

/-- The frames of the pages from `n` to `m`. -/
def frames (r : Ram) (root n m : Nat) : Set Nat :=
  {q | ∃ n' e, n ≤ n' ∧ n' ≤ m ∧ r.leaf root n' = some e ∧ q = PTE2PA e}

/-- How `uvmunmap` ends on the pages from `n` to `m`. -/
inductive UnmapEnds (end_ root : Nat) (r : Ram) (l : List Nat) (n m : Nat) (doFree : Bool) :
    Except Fault Ram → Prop where
  /-- All pages are unmapped, and their frames are free if that was asked for. -/
  | unmapped {r' : Ram} {freed : List Nat}
      (mapped : ∀ n', n ≤ n' → n' ≤ m → ∃ e, r.leaf root n' = some e ∧ pteFlags e ≠ 1)
      (tables : r'.Tables end_ root (freed ++ l))
      (freed_iff : ∀ q, q ∈ freed ↔ doFree = true ∧ q ∈ r.frames root n m)
      (same : nodes r'.tableRefs root TableShape = nodes r.tableRefs root TableShape)
      (leaf : ∀ n' < 2 ^ 26, r'.leaf root n' = if n ≤ n' ∧ n' ≤ m then none else r.leaf root n')
      (other : ∀ q, Manages end_ q → q ∉ freed → q ∉ nodes r.tableRefs root TableShape → SamePage r r' q) :
      UnmapEnds end_ root r l n m doFree (.ok r')
  /-- A page was not mapped. -/
  | missing {n' : Nat} {message : String} (within : n ≤ n' ∧ n' ≤ m) (none : r.leaf root n' = none) :
      UnmapEnds end_ root r l n m doFree (.error (.panic message))
  /-- An entry without rights. -/
  | pointer {n' e : Nat} (within : n ≤ n' ∧ n' ≤ m) (some_ : r.leaf root n' = some e) (bare : pteFlags e = 1) :
      UnmapEnds end_ root r l n m doFree (.error (.panic "uvmunmap: not a leaf"))

theorem stored_zero : stored 0 = none := rfl

/-- One page, after its frame has been freed if that was asked for, and the pages behind it. -/
theorem UnmapEnds.next {doFree : Bool} {e : Nat} {first : List Nat} {result : Except Fault Ram} (ordered : n ≤ m)
    (here : r.leaf root n = some e) (rights : pteFlags e ≠ 1)
    (freed_iff : ∀ q, q ∈ first ↔ doFree = true ∧ q = PTE2PA e)
    (same : nodes r₁.tableRefs root TableShape = nodes r.tableRefs root TableShape)
    (leaf : ∀ n' < 2 ^ 26, r₁.leaf root n' = if n' = n then none else r.leaf root n')
    (other : ∀ q, Manages end_ q → q ∉ first → q ∉ nodes r.tableRefs root TableShape → SamePage r r₁ q)
    (inRange : m < 2 ^ 26) (rest : UnmapEnds end_ root r₁ (first ++ l) (n + 1) m doFree result) :
    UnmapEnds end_ root r l n m doFree result := by
  have before {n' : Nat} (low : n + 1 ≤ n') (high : n' ≤ m) : r₁.leaf root n' = r.leaf root n' := by
    rw [leaf n' (by omega), if_neg (by omega)]
  cases rest with
  | @unmapped r' freed mapped tables freed_iff' same' leaf' other' =>
      refine @UnmapEnds.unmapped _ _ _ _ _ _ _ _ (freed ++ first) ?_ ?_ ?_ (same'.trans same) ?_ ?_
      · intro n' low high
        by_cases first : n' = n
        · exact ⟨e, first ▸ here, rights⟩
        · obtain ⟨e', found, rights'⟩ := mapped n' (by omega) high
          rw [before (by omega) high] at found
          exact ⟨e', found, rights'⟩
      · rw [List.append_assoc]
        exact tables
      · intro q
        rw [List.mem_append, freed_iff', freed_iff]
        constructor
        · rintro (⟨free, n', e', low, high, found, rfl⟩ | ⟨free, rfl⟩)
          · rw [before low high] at found
            exact ⟨free, n', e', by omega, high, found, rfl⟩
          · exact ⟨free, n, e, le_rfl, ordered, here, rfl⟩
        · rintro ⟨free, n', e', low, high, found, rfl⟩
          by_cases first : n' = n
          · rw [first, here] at found
            cases found
            exact .inr ⟨free, rfl⟩
          · rw [← before (by omega) high] at found
            exact .inl ⟨free, n', e', by omega, high, found, rfl⟩
      · intro n' small'
        rw [leaf' n' small', leaf n' small']
        by_cases first : n' = n
        · rw [if_neg (by omega), if_pos first, if_pos (by omega)]
        · rw [if_neg first]
          exact if_congr (by omega) rfl rfl
      · intro q manages fresh apart
        rw [List.mem_append, not_or] at fresh
        exact (other q manages fresh.2 apart).trans (other' q manages fresh.1 (by rw [same]; exact apart))
  | @missing n' message within none =>
      refine .missing (⟨by omega, within.2⟩ : n ≤ n' ∧ n' ≤ m) ?_
      rw [← before within.1 within.2, none]
  | @pointer n' e' within found bare =>
      refine .pointer (e := e') (⟨by omega, within.2⟩ : n ≤ n' ∧ n' ≤ m) ?_ bare
      rw [← before within.1 within.2, found]

/-- The loop of `uvmunmap`, by induction on the pages that are left. -/
theorem unmapFrom_ends {doFree : Bool} (tables : r.Tables end_ root l) (ordered : n ≤ m) (small : m < 2 ^ 26)
    (enough : m < n + fuel) (freeable : doFree = true → Freeable end_ root r l n m) :
    UnmapEnds end_ root r l n m doFree (unmapFrom end_ root (m * PGSIZE) doFree fuel (n * PGSIZE) r) := by
  induction fuel generalizing n r l with
  | zero => omega
  | succ fuel ih =>
      have page : n * PGSIZE / PGSIZE = n := Nat.mul_div_cancel n (by decide)
      have below : n * PGSIZE < MAXVA := by
        change n * 4096 < 2 ^ 38
        omega
      have n_lt : n < 2 ^ 26 := by omega
      have walk : r.walk end_ root (n * PGSIZE) false = _ := walk_find r root below
      rw [page] at walk
      rw [unmapFrom, walk, ok_bind]
      simp only
      cases found : descend r.tableRefs root (tablePath n) with
      | none =>
          rw [Option.map_none, Option.getD_none, if_pos rfl]
          refine .missing (⟨le_rfl, ordered⟩ : n ≤ n ∧ n ≤ m) ?_
          rw [leaf, found, Option.bind_none]
      | some t =>
          rw [Option.map_some, Option.getD_some]
          obtain ⟨managed, used⟩ := tables.page_managed (tablePath_mem n) found
          have real : t + 8 * (n % 512) ≠ 0 := by
            have positive := managed.ne_zero
            omega
          have entry : r.leaf root n = r.validPte t (n % 512) := by rw [leaf, found, Option.bind_some]
          rw [if_neg real]
          by_cases invalid : r.pte (t + 8 * (n % 512)) % 2 = 0
          · rw [if_pos invalid]
            refine .missing (⟨le_rfl, ordered⟩ : n ≤ n ∧ n ≤ m) ?_
            rw [entry, validPte, if_neg (by omega)]
          rw [if_neg invalid]
          have here : r.leaf root n = some (r.pte (t + 8 * (n % 512))) := by
            rw [entry, validPte, if_pos (by omega)]
          generalize r.pte (t + 8 * (n % 512)) = e at here
          by_cases bare : pteFlags e = 1
          · rw [if_pos bare]
            exact .pointer (⟨le_rfl, ordered⟩ : n ≤ n ∧ n ≤ m) here bare
          rw [if_neg bare]
          -- The frame is freed, if that is asked for.
          obtain ⟨first, r₁, ran, tables₁, descends, leaf₁, freed_iff, page₁⟩ : ∃ first r₁,
              (if doFree = true then r.kfree end_ (PTE2PA e) else .ok r) = .ok r₁ ∧
              r₁.Tables end_ root (first ++ l) ∧
              (∀ {path}, path ∈ TableShape → descend r₁.tableRefs root path = descend r.tableRefs root path) ∧
              (∀ n, r₁.leaf root n = r.leaf root n) ∧
              (∀ q, q ∈ first ↔ doFree = true ∧ q = PTE2PA e) ∧
              ∀ q, Manages end_ q → q ∉ first → SamePage r r₁ q := by
            cases doFree with
            | false => exact ⟨[], r, rfl, tables, fun _ => rfl, fun _ => rfl, by simp, fun q _ _ => .refl r q⟩
            | true =>
                obtain ⟨manages, fresh, apart⟩ := (freeable rfl).frame le_rfl ordered here
                obtain ⟨r₁, ran, tables₁, descends, leaf₁, page₁⟩ := tables.kfree manages fresh apart
                refine ⟨[PTE2PA e], r₁, ran, tables₁, descends, leaf₁, by simp, fun q other different => ?_⟩
                exact page₁ q other (by simpa using different)
          rw [ran, ok_bind]
          have found₁ : descend r₁.tableRefs root (tablePath n) = some t := by rw [descends (tablePath_mem n), found]
          obtain ⟨tables₂, descends₂, leaves, pages⟩ := tables₁.setLeaf n_lt found₁ 0
          have same : nodes (r₁.setPte (t + 8 * (n % 512)) 0).tableRefs root TableShape =
              nodes r.tableRefs root TableShape := by
            ext q
            refine exists_congr fun path => and_congr_right fun inShape => ?_
            rw [descends₂ inShape, descends inShape]
          have leaf₂ : ∀ n' < 2 ^ 26, (r₁.setPte (t + 8 * (n % 512)) 0).leaf root n' =
              if n' = n then none else r.leaf root n' := by
            intro n' small'
            rw [leaves n' small', stored_zero, leaf₁]
          have other : ∀ q, Manages end_ q → q ∉ first → q ∉ nodes r.tableRefs root TableShape →
              SamePage r (r₁.setPte (t + 8 * (n % 512)) 0) q := by
            intro q manages fresh apart
            refine (page₁ q manages fresh).trans (pages q manages ?_)
            rintro rfl
            exact apart ⟨_, tablePath_mem n, found⟩
          by_cases last : n * PGSIZE = m * PGSIZE
          · have same_page : n = m := Nat.eq_of_mul_eq_mul_right (by decide) last
            subst same_page
            rw [if_pos last]
            refine @UnmapEnds.unmapped _ _ _ _ _ _ _ _ first (fun n' low high => ?_) tables₂ (fun q => ?_) same
              (fun n' small' => ?_) other
            · have only : n' = n := by omega
              exact ⟨e, only ▸ here, bare⟩
            · rw [freed_iff]
              refine and_congr_right fun _ => ⟨?_, ?_⟩
              · rintro rfl
                exact ⟨n, e, le_rfl, le_rfl, here, rfl⟩
              · rintro ⟨n', e', low, high, there, rfl⟩
                have only : n' = n := by omega
                rw [only, here] at there
                cases there
                rfl
            · rw [leaf₂ n' small']
              exact if_congr (by omega) rfl rfl
          · have more : n + 1 ≤ m := by
              by_contra done
              have same_page : n = m := by omega
              exact last (same_page ▸ rfl)
            have address : (n * PGSIZE + PGSIZE) % 2 ^ 64 = (n + 1) * PGSIZE := by
              change (n * 4096 + 4096) % 2 ^ 64 = (n + 1) * 4096
              omega
            rw [if_neg last, address]
            refine .next ordered here bare freed_iff same leaf₂ other small ?_
            refine ih tables₂ more (by omega) fun free => ?_
            have before {n' : Nat} (low : n + 1 ≤ n') (high : n' ≤ m) :
                (r₁.setPte (t + 8 * (n % 512)) 0).leaf root n' = r.leaf root n' := by
              rw [leaf₂ n' (by omega), if_neg (by omega)]
            have whole := freeable free
            constructor
            · intro n' e' low high there
              rw [before low high] at there
              obtain ⟨manages, fresh, apart⟩ := whole.frame (by omega) high there
              refine ⟨manages, ?_, by rw [same]; exact apart⟩
              rw [List.mem_append, freed_iff, not_or]
              refine ⟨?_, fresh⟩
              rintro ⟨-, shared⟩
              have equal := whole.once (by omega) high le_rfl ordered there here shared
              omega
            · intro n' n'' e' e'' low high low' high' there there'
              rw [before low high] at there
              rw [before low' high'] at there'
              exact whole.once (by omega) high (by omega) high' there there'

end Ram

end Riscv2os.Xv7
