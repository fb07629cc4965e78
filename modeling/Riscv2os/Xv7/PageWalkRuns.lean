import Riscv2os.Xv7.PageWalkMap

/-!
# A page table is a map

What a page table is for: a map from virtual pages to frames and rights (`PageMap`). Every run of `mappages` and
`uvmunmap` on a table that `uvmcreate` made is a run on the map, whatever the rest of the kernel does meanwhile with
pages that are not the table's.
-/

namespace Riscv2os.Xv7

open Riscv2os.Std
open RefTree (descend nodes Unshared)

/-- What a virtual page is mapped to. -/
structure Mapping where
  pa : Nat
  perm : Nat

namespace Mapping

/-- The entry in the table. -/
def word (e : Mapping) : Nat := (PA2PTE e.pa ||| e.perm ||| 1) % 2 ^ 64

/-- Some of `PTE_R`, `PTE_W` and `PTE_X`. -/
def HasRights (perm : Nat) : Prop := perm % 2 ^ 4 / 2 ≠ 0

/-- The address fits into an entry, the rights fit beside it, and there are some. -/
structure Valid (e : Mapping) : Prop where
  fits : e.pa < 2 ^ 56
  flags : e.perm < 2 ^ 10
  rights : HasRights e.perm

/-- The page may be used in user mode. -/
def User (e : Mapping) : Prop := e.perm / 2 ^ 4 % 2 = 1

instance (e : Mapping) : Decidable e.User := inferInstanceAs (Decidable (_ = 1))

variable {e : Mapping}

theorem word_valid (e : Mapping) : e.word % 2 = 1 := by
  unfold word
  rw [Nat.mod_mod_of_dvd _ (by decide : 2 ∣ 2 ^ 64), Nat.or_mod_two_eq_one]
  exact .inr rfl

theorem PA2PTE_flags (pa : Nat) : PA2PTE pa % 2 ^ 10 = 0 := Nat.mul_mod_left ..

/-- The flags of an entry are those of the map, with `PTE_V`. -/
theorem word_flags (e : Mapping) : pteFlags e.word = e.perm % 2 ^ 10 ||| 1 := by
  unfold pteFlags word
  rw [Nat.mod_mod_of_dvd _ (by decide : 2 ^ 10 ∣ 2 ^ 64), Nat.or_mod_two_pow, Nat.or_mod_two_pow, PA2PTE_flags,
    Nat.zero_or]

/-- An entry with rights is a leaf. -/
theorem flags_leaf (rights : HasRights e.perm) : pteFlags e.word ≠ 1 := by
  rw [word_flags]
  intro bare
  have high : (e.perm % 2 ^ 10 ||| 1) / 2 = e.perm % 2 ^ 10 / 2 := by
    rw [Nat.or_div_two, (by decide : 1 / 2 = 0), Nat.or_zero]
  rw [bare] at high
  unfold HasRights at rights
  omega

/-- The frame in the entry. -/
theorem word_pa (valid : e.Valid) : PTE2PA e.word = pgRoundDown e.pa := by
  have fits := valid.fits
  have flags := valid.flags
  have small : PA2PTE e.pa ||| e.perm ||| 1 < 2 ^ 64 := by
    refine Nat.or_lt_two_pow (Nat.or_lt_two_pow ?_ (by omega)) (by decide)
    unfold PA2PTE
    omega
  have quotient : (PA2PTE e.pa ||| e.perm ||| 1) / 2 ^ 10 = e.pa / 2 ^ 12 := by
    rw [Nat.or_div_two_pow, Nat.or_div_two_pow, Nat.div_eq_of_lt flags, (by decide : 1 / 2 ^ 10 = 0), Nat.or_zero,
      Nat.or_zero]
    exact Nat.mul_div_cancel _ (by decide)
  unfold PTE2PA word
  rw [Nat.mod_eq_of_lt small, quotient]
  change e.pa / 4096 * 4096 % 2 ^ 64 = e.pa / 4096 * 4096
  omega

theorem word_user (e : Mapping) : e.word / 2 ^ 4 % 2 = e.perm / 2 ^ 4 % 2 := by
  have bit : e.word.testBit 4 = e.perm.testBit 4 := by
    have low : (PA2PTE e.pa).testBit 4 = false := by
      have zero : (PA2PTE e.pa % 2 ^ 10).testBit 4 = false := by rw [PA2PTE_flags]; rfl
      rwa [Nat.testBit_mod_two_pow, (by decide : decide (4 < 10) = true), Bool.true_and] at zero
    unfold word
    rw [Nat.testBit_mod_two_pow, Nat.testBit_or, Nat.testBit_or, low, (by decide : Nat.testBit 1 4 = false)]
    simp
  rw [Nat.testBit_eq_decide_div_mod_eq, Nat.testBit_eq_decide_div_mod_eq, decide_eq_decide] at bit
  omega

end Mapping

/-- A map of virtual pages. -/
abbrev PageMap := Nat → Option Mapping

namespace PageMap

/-- The pages that meet `[va, va + size)`, counted from the page of `va`. -/
def pages (va size : Nat) : Nat := (va + size - 1) / PGSIZE - va / PGSIZE + 1

/-- Map `k` pages from `n` on. -/
def mapped (M : PageMap) (n k pa perm : Nat) : PageMap := fun n' =>
  if n ≤ n' ∧ n' < n + k then some ⟨(pa + (n' - n) * PGSIZE) % 2 ^ 64, perm⟩ else M n'

/-- Unmap `k` pages from `n` on. -/
def unmapped (M : PageMap) (n k : Nat) : PageMap := fun n' => if n ≤ n' ∧ n' < n + k then none else M n'

/-- The physical address of a user page, or 0. -/
def walkaddr (M : PageMap) (va : Nat) : Nat :=
  if va ≥ MAXVA then 0
  else match M (va / PGSIZE) with
    | some e => if e.User then pgRoundDown e.pa else 0
    | none => 0

end PageMap

/-- The calls on a page table, and what the rest of the kernel does with memory. -/
inductive TableCall where
  | mappages (va size pa perm : Nat)
  | uvmunmap (va size : Nat) (doFree : Bool)
  | kalloc
  | kfree (pa : Nat)
  /-- Stores, after which the memory is this one. -/
  | write (mem : ByteMemory)

namespace TableCall

/-- What a call does to the map. `mappages` returns -1 if there was no page for the table. -/
def Does (M : PageMap) : TableCall × Int → PageMap → Prop
  | (.mappages va size pa perm, ret), M' => ∃ k,
      (ret = 0 ∧ k = PageMap.pages va size ∨ ret = -1 ∧ k < PageMap.pages va size) ∧
        (∀ j < k, M (va / PGSIZE + j) = none) ∧ M' = M.mapped (va / PGSIZE) k pa perm
  | (.uvmunmap va size _, ret), M' => ret = 0 ∧ (∀ j < PageMap.pages va size, M (va / PGSIZE + j) ≠ none) ∧
      M' = M.unmapped (va / PGSIZE) (PageMap.pages va size)
  | _, M' => M' = M

end TableCall

/-- The runs of the map. -/
def mapSystem : TransitionSystem PageMap (TableCall × Int) where
  Initial M := ∀ n, M n = none
  Step M c M' := TableCall.Does M c M'

namespace Ram

variable (end_ root : Nat)

/-- The physical address of a user page, or 0. -/
def walkaddr (r : Ram) (va : Nat) : Except Fault Nat :=
  if va ≥ MAXVA then .ok 0
  else do
    let (place, _) ← r.walk end_ root va false
    if place = 0 then .ok 0
    else if r.pte place % 2 = 0 then .ok 0
    else if r.pte place / 2 ^ 4 % 2 = 0 then .ok 0
    else .ok (PTE2PA (r.pte place))

def tableCall (r : Ram) : TableCall → Except Fault (Int × Ram)
  | .mappages va size pa perm => r.mappages end_ root va size pa perm
  | .uvmunmap va size doFree => do
      let r ← r.uvmunmap end_ root va size doFree
      .ok (0, r)
  | .kalloc =>
      let (pa, r) := r.kalloc end_
      .ok (pa, r)
  | .kfree pa => do
      let r ← r.kfree end_ pa
      .ok (0, r)
  | .write mem => .ok (0, { r with mem := mem })

/-- A page of the table. -/
def InTable (r : Ram) (q : Nat) : Prop := q ∈ nodes r.tableRefs root TableShape

/-- What the callers keep to. A range is not empty and ends below `MAXVA`, and its pages are mapped to physical
addresses of 56 bits with some rights. With `doFree`, the frames of the pages are used for nothing else. The rest of
the kernel frees pages that it has, and
does not store into free pages or pages of the table. -/
def Permitted (r : Ram) : TableCall → Prop
  | .mappages va size pa perm => 0 < size ∧ va + size ≤ MAXVA ∧ pa + PageMap.pages va size * PGSIZE ≤ 2 ^ 56 ∧
      perm < 2 ^ 10 ∧ Mapping.HasRights perm
  | .uvmunmap va size doFree => 0 < size ∧ va + size ≤ MAXVA ∧ (doFree = true →
      ∀ l, r.Lists end_ l → Freeable end_ root r l (va / PGSIZE) ((va + size - 1) / PGSIZE))
  | .kalloc => True
  | .kfree pa => Manages end_ pa ∧ ¬ r.Listed pa ∧ ¬ r.InTable root pa
  | .write mem => ∀ b, mem b ≠ r.mem b → ∀ q, r.Listed q ∨ r.InTable root q → ¬ (q ≤ b ∧ b < q + PGSIZE)

/-- The runs of a page table, from its creation on. -/
def tableSystem : TransitionSystem Ram (TableCall × Int) where
  Initial r := ∃ (r₀ : Ram) (l : List Nat), r₀.Lists end_ l ∧ r₀.uvmcreate end_ = .ok (root, r)
  Step r c r' := r.tableCall end_ root c.1 = .ok (c.2, r')

/-- The leaf entries of the table are those of the map. -/
structure Holds (r : Ram) (M : PageMap) : Prop where
  tables : ∃ l, r.Tables end_ root l
  leaf : ∀ n < 2 ^ 26, r.leaf root n = (M n).map Mapping.word
  valid : ∀ n e, M n = some e → e.Valid

variable {end_ root} {r r' : Ram} {M : PageMap} {va size pa perm : Nat} {l : List Nat}

/-- The first and the last page of a range. -/
theorem range_pages (positive : 0 < size) (fits : va + size ≤ MAXVA) :
    pgRoundDown va = va / PGSIZE * PGSIZE ∧
      pgRoundDown ((va + size + 2 ^ 64 - 1) % 2 ^ 64) = (va + size - 1) / PGSIZE * PGSIZE ∧
      va / PGSIZE ≤ (va + size - 1) / PGSIZE ∧ (va + size - 1) / PGSIZE < 2 ^ 26 ∧
      (va + size - 1) / PGSIZE < va / PGSIZE + rounds ∧
      va / PGSIZE + PageMap.pages va size = (va + size - 1) / PGSIZE + 1 := by
  change va + size ≤ 2 ^ 38 at fits
  have last : (va + size + 2 ^ 64 - 1) % 2 ^ 64 = va + size - 1 := by omega
  have count : rounds = 2 ^ 26 + 1 := by decide
  rw [last, count]
  unfold PageMap.pages
  change _ ∧ _ ∧ va / 4096 ≤ (va + size - 1) / 4096 ∧ (va + size - 1) / 4096 < 2 ^ 26 ∧
    (va + size - 1) / 4096 < va / 4096 + (2 ^ 26 + 1) ∧
    va / 4096 + ((va + size - 1) / 4096 - va / 4096 + 1) = (va + size - 1) / 4096 + 1
  refine ⟨rfl, rfl, ?_, ?_, ?_, ?_⟩ <;> omega

namespace Holds

variable (holds : Holds end_ root r M)
include holds

/-- The map has what the table has. -/
theorem unmapped_iff {n : Nat} (small : n < 2 ^ 26) : r.leaf root n = none ↔ M n = none := by
  rw [holds.leaf n small, Option.map_eq_none_iff]

/-- Stores outside of the pages of the table, and outside of the free pages. -/
theorem frame (tables : r'.Tables end_ root l) (leaf : ∀ n, r'.leaf root n = r.leaf root n) : Holds end_ root r' M where
  tables := ⟨l, tables⟩
  leaf n small := (leaf n).trans (holds.leaf n small)
  valid := holds.valid

/-- `k` pages are mapped. -/
theorem maps {k n : Nat} (fits : pa + k * PGSIZE ≤ 2 ^ 56) (flags : perm < 2 ^ 10) (rights : Mapping.HasRights perm)
    (range : MapsRange end_ root r l n k (mapEntry pa perm) r' l') :
    Holds end_ root r' (M.mapped n k pa perm) := by
  refine ⟨⟨_, range.tables⟩, fun n' small => ?_, fun n' e found => ?_⟩
  · rw [range.leaf n' small, PageMap.mapped]
    split
    · rfl
    · exact holds.leaf n' small
  · rw [PageMap.mapped] at found
    split at found
    · next inside =>
        cases found
        refine ⟨?_, flags, rights⟩
        change pa + k * 4096 ≤ 2 ^ 56 at fits
        change (pa + (n' - n) * 4096) % 2 ^ 64 < 2 ^ 56
        omega
    · exact holds.valid n' e found

/-- What `mappages` does to the map. -/
theorem mappages (permitted : Permitted end_ root r (.mappages va size pa perm)) :
    (∃ ret r' M', r.mappages end_ root va size pa perm = .ok (ret, r') ∧
      TableCall.Does M (.mappages va size pa perm, ret) M' ∧ Holds end_ root r' M') ∨
    (∃ j < PageMap.pages va size, M (va / PGSIZE + j) ≠ none) ∧
      r.mappages end_ root va size pa perm = .error (.panic "remap") := by
  obtain ⟨positive, fits, narrow, flags, rights⟩ := permitted
  have part {k : Nat} (few : k ≤ PageMap.pages va size) : pa + k * PGSIZE ≤ 2 ^ 56 :=
    (Nat.add_le_add_left (Nat.mul_le_mul_right _ few) pa).trans narrow
  have small_pa : pa < 2 ^ 64 := ((Nat.le_add_right pa _).trans narrow).trans_lt (by decide)
  obtain ⟨first, last, ordered, small, enough, count⟩ := range_pages positive fits
  obtain ⟨l, tables⟩ := holds.tables
  have ends : MapEnds end_ root r l (va / PGSIZE) ((va + size - 1) / PGSIZE) pa perm
      (r.mappages end_ root va size pa perm) := by
    rw [Ram.mappages, first, last]
    exact mapFrom_ends tables ordered small enough small_pa
  generalize r.mappages end_ root va size pa perm = result at ends
  cases ends with
  | mapped vacant maps =>
      have k : (va + size - 1) / PGSIZE + 1 - va / PGSIZE = PageMap.pages va size := by omega
      rw [k] at maps
      refine .inl ⟨_, _, _, rfl, ⟨_, .inl ⟨rfl, rfl⟩, fun j below => ?_, rfl⟩, holds.maps narrow flags rights maps⟩
      exact (holds.unmapped_iff (by omega)).mp (vacant _ (by omega) (by omega))
  | full vacant few maps =>
      refine .inl ⟨_, _, _, rfl, ⟨_, .inr ⟨rfl, by omega⟩, fun j below => ?_, rfl⟩,
        holds.maps (part (by omega)) flags rights maps⟩
      exact (holds.unmapped_iff (by omega)).mp (vacant _ (by omega) (by omega))
  | @remap n' within taken =>
      refine .inr ⟨⟨n' - va / PGSIZE, by omega, ?_⟩, rfl⟩
      rw [Nat.add_sub_cancel' within.1]
      exact fun none => taken ((holds.unmapped_iff (by omega)).mpr none)

/-- What `uvmunmap` does to the map. -/
theorem uvmunmap {doFree : Bool} (permitted : Permitted end_ root r (.uvmunmap va size doFree)) :
    (∃ r' M', r.uvmunmap end_ root va size doFree = .ok r' ∧
      TableCall.Does M (.uvmunmap va size doFree, 0) M' ∧ Holds end_ root r' M') ∨
    (∃ j < PageMap.pages va size, M (va / PGSIZE + j) = none) ∧
      ∃ message, r.uvmunmap end_ root va size doFree = .error (.panic message) := by
  obtain ⟨positive, fits, freeable⟩ := permitted
  obtain ⟨first, last, ordered, small, enough, count⟩ := range_pages positive fits
  obtain ⟨l, tables⟩ := holds.tables
  have ends : UnmapEnds end_ root r l (va / PGSIZE) ((va + size - 1) / PGSIZE) doFree
      (r.uvmunmap end_ root va size doFree) := by
    rw [Ram.uvmunmap, first, last]
    exact unmapFrom_ends tables ordered small enough fun free => freeable free l tables.lists
  generalize r.uvmunmap end_ root va size doFree = result at ends
  cases ends with
  | @unmapped r' freed mapped tables' _ _ leaf _ =>
      refine .inl ⟨_, _, rfl, ⟨rfl, fun j below none => ?_, rfl⟩, ⟨_, tables'⟩, fun n' small' => ?_,
        fun n' e found => ?_⟩
      · obtain ⟨e, found, -⟩ := mapped (va / PGSIZE + j) (by omega) (by omega)
        rw [(holds.unmapped_iff (by omega)).mpr none] at found
        cases found
      · rw [leaf n' small', PageMap.unmapped, holds.leaf n' small']
        by_cases inside : va / PGSIZE ≤ n' ∧ n' ≤ (va + size - 1) / PGSIZE
        · rw [if_pos inside, if_pos (by omega), Option.map_none]
        · rw [if_neg inside, if_neg (by omega)]
      · rw [PageMap.unmapped] at found
        split at found
        · cases found
        · exact holds.valid n' e found
  | @missing n' message within none =>
      refine .inr ⟨⟨n' - va / PGSIZE, by omega, ?_⟩, message, rfl⟩
      rw [Nat.add_sub_cancel' within.1]
      exact (holds.unmapped_iff (by omega)).mp none
  | @pointer n' e within found bare =>
      -- Every entry has some rights.
      rw [holds.leaf n' (by omega), Option.map_eq_some_iff] at found
      obtain ⟨e', found, rfl⟩ := found
      exact absurd bare (Mapping.flags_leaf (holds.valid n' e' found).rights)

/-- A permitted call does to the map what `TableCall.Does` says. -/
theorem step {c : TableCall} {ret : Int} (permitted : Permitted end_ root r c)
    (ran : r.tableCall end_ root c = .ok (ret, r')) : ∃ M', TableCall.Does M (c, ret) M' ∧ Holds end_ root r' M' := by
  obtain ⟨l, tables⟩ := holds.tables
  cases c with
  | mappages va size pa perm =>
      rw [tableCall] at ran
      rcases holds.mappages permitted with ⟨ret', r'', M', done, does, holds'⟩ | ⟨-, failed⟩
      · rw [done] at ran
        cases ran
        exact ⟨M', does, holds'⟩
      · rw [failed] at ran
        cases ran
  | uvmunmap va size doFree =>
      rw [tableCall] at ran
      rcases holds.uvmunmap permitted with ⟨r'', M', done, does, holds'⟩ | ⟨-, message, failed⟩
      · rw [done, ok_bind] at ran
        cases ran
        exact ⟨M', does, holds'⟩
      · rw [failed] at ran
        cases ran
  | kalloc =>
      refine ⟨M, rfl, ?_⟩
      cases l with
      | nil =>
          rw [tableCall, tables.lists.kalloc_nil] at ran
          cases ran
          exact holds
      | cons page l =>
          obtain ⟨-, lists, same⟩ := kalloc_page tables.lists
          rw [tableCall] at ran
          have after : (r.kalloc end_).2 = r' := by
            cases ran
            rfl
          rw [after] at lists same
          have apart : ∀ t ∈ nodes r.tableRefs root TableShape, t ≠ page := by
            rintro t member rfl
            exact (tables.managed t member).2 List.mem_cons_self
          obtain ⟨tables', -, leaf⟩ := tables.frame lists
            (fun t member => same t (tables.managed t member).1 (apart t member))
            (fun t member free => (tables.managed t member).2 (List.mem_cons_of_mem _ free))
          exact holds.frame tables' leaf
  | kfree page =>
      obtain ⟨manages, fresh, apart⟩ := permitted
      rw [tables.lists.listed_iff] at fresh
      obtain ⟨r'', done, tables', -, leaf, -⟩ := tables.kfree manages fresh apart
      rw [tableCall, done, ok_bind] at ran
      cases ran
      exact ⟨M, rfl, holds.frame tables' leaf⟩
  | write mem =>
      refine ⟨M, rfl, ?_⟩
      rw [tableCall] at ran
      cases ran
      have same {q : Nat} (kept : r.Listed q ∨ InTable root r q) : SamePage r { r with mem := mem } q := by
        intro b low high
        by_contra changed
        exact permitted b changed q kept ⟨low, high⟩
      have lists : Lists end_ { r with mem := mem } l := by
        refine ⟨tables.lists.table, tables.lists.list.congr fun q member => ?_, tables.lists.managed⟩
        exact (same (.inl (tables.lists.listed_iff.mpr member))).next
      obtain ⟨tables', -, leaf⟩ := tables.frame lists (fun t member => same (.inr member))
        fun t member => (tables.managed t member).2
      exact holds.frame tables' leaf

/-- An address of a page that is mapped, or is not. -/
theorem walk (small : va < MAXVA) :
    (∀ e, M (va / PGSIZE) = some e →
      ∃ place, place ≠ 0 ∧ r.walk end_ root va false = .ok (place, r) ∧ r.pte place = e.word) ∧
    (M (va / PGSIZE) = none →
      ∃ place, r.walk end_ root va false = .ok (place, r) ∧ (place = 0 ∨ r.pte place % 2 = 0)) := by
  obtain ⟨l, tables⟩ := holds.tables
  have inRange : va / PGSIZE < 2 ^ 26 := by
    change va < 2 ^ 38 at small
    change va / 4096 < 2 ^ 26
    omega
  have entry := holds.leaf _ inRange
  rw [Ram.leaf] at entry
  rw [walk_find r root small]
  cases below : descend r.tableRefs root (tablePath (va / PGSIZE)) with
  | none =>
      rw [below, Option.bind_none] at entry
      have free : M (va / PGSIZE) = none := Option.map_eq_none_iff.mp entry.symm
      refine ⟨fun e found => ?_, fun _ => ⟨0, rfl, .inl rfl⟩⟩
      rw [free] at found
      cases found
  | some t =>
      rw [below, Option.bind_some, validPte] at entry
      have real := (tables.page_managed (tablePath_mem _) below).1.ne_zero
      refine ⟨fun e found => ⟨_, ?_, rfl, ?_⟩, fun none => ⟨_, rfl, .inr ?_⟩⟩
      · rw [Option.map_some, Option.getD_some]
        omega
      · rw [found, Option.map_some] at entry
        split at entry
        · exact Option.some.inj entry
        · cases entry
      · rw [none, Option.map_none] at entry
        split at entry
        · cases entry
        · rw [Option.map_some, Option.getD_some]
          omega

/-- `walkaddr` is a look into the map. -/
theorem walkaddr (va : Nat) : r.walkaddr end_ root va = .ok (M.walkaddr va) := by
  unfold Ram.walkaddr PageMap.walkaddr
  by_cases large : va ≥ MAXVA
  · rw [if_pos large, if_pos large]
  · rw [if_neg large, if_neg large]
    obtain ⟨mapped, unmapped⟩ := holds.walk (not_le.mp large)
    cases page : M (va / PGSIZE) with
    | none =>
        obtain ⟨place, ran, invalid⟩ := unmapped page
        rw [ran, ok_bind]
        simp only
        rcases invalid with rfl | invalid
        · rw [if_pos rfl]
        · rw [if_pos invalid]
          split <;> rfl
    | some e =>
        obtain ⟨place, real, ran, entry⟩ := mapped e page
        have valid := Mapping.word_valid e
        have user := Mapping.word_user e
        rw [ran, ok_bind]
        simp only
        rw [entry, if_neg real, if_neg (by omega), user, Mapping.word_pa (holds.valid _ e page)]
        by_cases may : e.User
        · rw [if_pos may, if_neg (by unfold Mapping.User at may; omega)]
        · rw [if_neg may, if_pos (by unfold Mapping.User at may; omega)]

end Holds

/-- A new table maps nothing. -/
theorem uvmcreate_holds (lists : r.Lists end_ l) (ran : r.uvmcreate end_ = .ok (root, r')) :
    Holds end_ root r' fun _ => none := by
  cases l with
  | nil =>
      rw [uvmcreate, lists.kalloc_nil] at ran
      simp at ran
  | cons page l =>
      obtain ⟨first, lists', same⟩ := kalloc_page lists
      have manages := lists.managed page List.mem_cons_self
      have fresh := (List.nodup_cons.mp lists.list.nodup).1
      rw [uvmcreate] at ran
      simp only at ran
      rw [first, if_neg manages.ne_zero] at ran
      cases ran
      generalize filled : (r.kalloc end_).2.fillPage root 0 = r'
      have bare (i : Nat) : r'.tableRefs root i = none := by
        unfold tableRefs
        by_cases small : i < 512
        · rw [← filled, pte_fillPage small, if_neg (by simp)]
        · rw [if_neg fun h => small h.1]
      have tables : r'.Tables end_ root l := by
        refine ⟨?_, ?_, ?_⟩
        · rw [← filled]
          refine ⟨lists'.table, lists'.list.congr fun q member => ?_, lists'.managed⟩
          exact next_fillPage manages (lists'.managed q member) fun shared => fresh (shared ▸ member)
        · intro path _ path' _ node found found'
          rw [(RefTree.descend_bare bare found).1, (RefTree.descend_bare bare found').1]
        · rintro t ⟨path, -, found⟩
          rw [(RefTree.descend_bare bare found).2]
          exact ⟨manages, fresh⟩
      refine ⟨⟨l, tables⟩, fun n _ => ?_, fun n e found => nomatch found⟩
      have nothing : descend r'.tableRefs root (tablePath n) = none := by
        rw [tablePath, descend, bare, Option.bind_none]
      rw [leaf, nothing, Option.bind_none, Option.map_none]

/-- What the calls find is what the map says, and the permitted calls return unless the map forbids it. -/
structure Shows (end_ root : Nat) (r : Ram) (M : PageMap) : Prop where
  entry : ∀ {va e}, va < MAXVA → M (va / PGSIZE) = some e →
    ∃ place, place ≠ 0 ∧ r.walk end_ root va false = .ok (place, r) ∧ r.pte place = e.word
  no_entry : ∀ {va}, va < MAXVA → M (va / PGSIZE) = none →
    ∃ place, r.walk end_ root va false = .ok (place, r) ∧ (place = 0 ∨ r.pte place % 2 = 0)
  walkaddr : ∀ va, r.walkaddr end_ root va = .ok (M.walkaddr va)
  mappages : ∀ {va size pa perm}, Permitted end_ root r (.mappages va size pa perm) →
    ((∃ ret r', r.mappages end_ root va size pa perm = .ok (ret, r')) ∨
      r.mappages end_ root va size pa perm = .error (.panic "remap")) ∧
    ((∀ j < PageMap.pages va size, M (va / PGSIZE + j) = none) →
      ∃ ret r', r.mappages end_ root va size pa perm = .ok (ret, r'))
  uvmunmap_iff : ∀ {va size doFree}, Permitted end_ root r (.uvmunmap va size doFree) →
    ((∃ r', r.uvmunmap end_ root va size doFree = .ok r') ↔
      ∀ j < PageMap.pages va size, M (va / PGSIZE + j) ≠ none)

/-- What the calls return, all from the map. -/
theorem Holds.shows (holds : Holds end_ root r M) : Shows end_ root r M where
  entry small found := (holds.walk small).1 _ found
  no_entry small none := (holds.walk small).2 none
  walkaddr := holds.walkaddr
  mappages permitted := by
    rcases holds.mappages permitted with ⟨ret, r', -, ran, -, -⟩ | ⟨⟨j, below, taken⟩, ran⟩
    · exact ⟨.inl ⟨ret, r', ran⟩, fun _ => ⟨ret, r', ran⟩⟩
    · exact ⟨.inr ran, fun vacant => absurd (vacant j below) taken⟩
  uvmunmap_iff permitted := by
    rcases holds.uvmunmap permitted with ⟨r', M', ran, ⟨-, mapped, -⟩, -⟩ | ⟨⟨j, below, none⟩, message, ran⟩
    · exact ⟨fun _ => mapped, fun _ => ⟨r', ran⟩⟩
    · refine ⟨?_, fun mapped => absurd none (mapped j below)⟩
      rintro ⟨r', ran'⟩
      rw [ran] at ran'
      cases ran'

/-- Every run of the calls on a page table, from `uvmcreate` on and with whatever the rest of the kernel does in
between, is a run of the map with the same calls and results, and the table shows that map. -/
theorem pagetable_refines {taken : List (Ram × TableCall × Int)} (run : (tableSystem end_ root).Run taken r)
    (permitted : ∀ step ∈ taken, Permitted end_ root step.1 step.2.1) :
    ∃ trace M, mapSystem.Run trace M ∧ trace.map Prod.snd = taken.map Prod.snd ∧ Shows end_ root r M := by
  have initial {r : Ram} (valid : (tableSystem end_ root).Initial r) :
      ∃ M, mapSystem.Initial M ∧ Holds end_ root r M := by
    obtain ⟨r₀, l, lists, ran⟩ := valid
    exact ⟨_, fun _ => rfl, uvmcreate_holds lists ran⟩
  have step {r r' : Ram} {M : PageMap} {c : TableCall × Int} (holds : Holds end_ root r M)
      (allowed : Permitted end_ root r c.1) (ran : (tableSystem end_ root).Step r c r') :
      ∃ M', mapSystem.Step M c M' ∧ Holds end_ root r' M' := holds.step allowed ran
  obtain ⟨trace, M, run', labels, holds⟩ := run.simulated initial step permitted
  exact ⟨trace, M, run', labels, holds.shows⟩

/-- One page is mapped in a new table. -/
theorem pagetable_refines_page : ∃ root ret r₀ r, (tableSystem 0x80024F38 root).Run
      [(r₀, .mappages 0x3000 0x1000 0x87000000 0x17, ret)] r ∧
    ∃ trace M, mapSystem.Run trace M ∧ trace.map Prod.snd = [(.mappages 0x3000 0x1000 0x87000000 0x17, ret)] ∧
      Shows 0x80024F38 root r M := by
  have manages : Manages 0x80024F38 0x87FFF000 := ⟨by decide, by decide, by decide⟩
  obtain ⟨r, l, -, lists, all, -⟩ := kinit_ok (by decide : 0x80024F38 ≤ PHYSTOP) fun _ => 0
  cases l with
  | nil => exact absurd ((all _).mpr manages) List.not_mem_nil
  | cons root l =>
      have first := (kalloc_page lists).1
      have created : r.uvmcreate 0x80024F38 = .ok (root, (r.kalloc 0x80024F38).2.fillPage root 0) := by
        have real := (lists.managed root List.mem_cons_self).ne_zero
        rw [uvmcreate]
        simp only
        rw [first, if_neg real]
      generalize (r.kalloc 0x80024F38).2.fillPage root 0 = r₀ at created
      have permitted : Permitted 0x80024F38 root r₀ (.mappages 0x3000 0x1000 0x87000000 0x17) := by
        refine ⟨by decide, by decide, by decide, by decide, ?_⟩
        unfold Mapping.HasRights
        decide
      obtain ⟨ret, r₁, ran⟩ := ((uvmcreate_holds lists created).shows.mappages permitted).2 fun _ _ => rfl
      have initial : (tableSystem 0x80024F38 root).Initial r₀ := ⟨r, root :: l, lists, created⟩
      have run : (tableSystem 0x80024F38 root).Run [(r₀, .mappages 0x3000 0x1000 0x87000000 0x17, ret)] r₁ :=
        .step (.initial initial) ran
      refine ⟨root, ret, r₀, r₁, run, pagetable_refines run fun step member => ?_⟩
      rw [List.mem_singleton.mp member]
      exact permitted

end Ram

end Riscv2os.Xv7
