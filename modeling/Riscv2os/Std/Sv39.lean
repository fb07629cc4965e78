import Mathlib.Data.BitVec
import Mathlib.Tactic

/-!
# Translation of addresses with page tables of three levels

The walk of Sv39 through any number of levels, over page-table entries at physical addresses. Rights, accessed
and dirty bits are not looked at.
-/

namespace Riscv2os.Std

namespace Sv39

/-- A page-table entry. -/
abbrev Entry := BitVec 64

namespace Entry

variable (e : Entry)

def valid : Bool := e.getLsbD 0
def readable : Bool := e.getLsbD 1
def writable : Bool := e.getLsbD 2
def executable : Bool := e.getLsbD 3

/-- The physical page number. -/
def ppn : Nat := e.toNat / 2 ^ 10 % 2 ^ 44

/-- An entry that maps a page. -/
def leaf : Bool := readable e || executable e

/-- An entry that is not valid, or that can be written but not read. -/
def refused : Bool := !valid e || (!readable e && writable e)

/-- The page of a leaf starts at a multiple of its size. -/
def Aligned (level : Nat) : Prop := 2 ^ (9 * level) ∣ ppn e

/-- The physical address that a leaf gives. -/
def address (level va : Nat) : Nat := ppn e * 2 ^ 12 + va % 2 ^ (12 + 9 * level)

end Entry

/-- The index into a table of this level. -/
def vpn (va level : Nat) : Nat := va / 2 ^ (12 + 9 * level) % 2 ^ 9

variable (entryAt : Nat → Entry) (va : Nat)

/-- The leaf that an address selects, and its level, from a table with this many levels. -/
def walk : Nat → Nat → Option (Entry × Nat)
  | 0, _ => none
  | level + 1, table =>
      let e := entryAt (table + 8 * vpn va level)
      if e.refused then none
      else if e.leaf then some (e, level)
      else walk level (e.ppn * 2 ^ 12)

/-- The places of the entries that the walk looks at: the level and the address. -/
def visited : Nat → Nat → List (Nat × Nat)
  | 0, _ => []
  | level + 1, table =>
      let place := table + 8 * vpn va level
      let e := entryAt place
      (level, place) :: if e.refused || e.leaf then [] else visited level (e.ppn * 2 ^ 12)

variable {entryAt va}

theorem visited_length (levels table : Nat) : (visited entryAt va levels table).length ≤ levels := by
  induction levels generalizing table with
  | zero => exact le_rfl
  | succ level ih =>
      unfold visited
      simp only [List.length_cons]
      split
      · simp
      · exact Nat.succ_le_succ (ih _)

/-- The walk depends on the entries it looks at. -/
theorem walk_congr {entryAt' : Nat → Entry} {levels table : Nat}
    (same : ∀ place ∈ visited entryAt va levels table, entryAt place.2 = entryAt' place.2) :
    walk entryAt va levels table = walk entryAt' va levels table := by
  induction levels generalizing table with
  | zero => rfl
  | succ level ih =>
      have first : entryAt (table + 8 * vpn va level) = entryAt' (table + 8 * vpn va level) :=
        same _ List.mem_cons_self
      unfold walk
      simp only [← first]
      split
      · rfl
      next fine =>
      split
      · rfl
      next pointer =>
      refine ih fun place member => same place (List.mem_cons_of_mem _ ?_)
      rwa [if_neg (by simp [fine, pointer])]

/-- So do the places of these entries. -/
theorem visited_congr {entryAt' : Nat → Entry} {levels table : Nat}
    (same : ∀ place ∈ visited entryAt va levels table, entryAt place.2 = entryAt' place.2) :
    visited entryAt va levels table = visited entryAt' va levels table := by
  induction levels generalizing table with
  | zero => rfl
  | succ level ih =>
      have first : entryAt (table + 8 * vpn va level) = entryAt' (table + 8 * vpn va level) :=
        same _ List.mem_cons_self
      unfold visited
      simp only [← first]
      refine congrArg _ ?_
      split
      · rfl
      next goes => exact ih fun place member => same place (List.mem_cons_of_mem _ (by rwa [if_neg goes]))

/-- A leaf is found at one of the levels. -/
theorem walk_level {levels table level : Nat} {e : Entry}
    (found : walk entryAt va levels table = some (e, level)) : level < levels := by
  induction levels generalizing table with
  | zero => cases found
  | succ above ih =>
      unfold walk at found
      dsimp only at found
      split at found
      · cases found
      split at found
      · cases found
        exact Nat.lt_succ_self _
      · exact Nat.lt_succ_of_lt (ih found)

/-- The walk ends without a leaf exactly at an entry that is refused, or at a pointer in the last table. -/
theorem walk_eq_none_iff (levels table : Nat) : walk entryAt va levels table = none ↔ levels = 0 ∨
    ∃ place ∈ visited entryAt va levels table, (entryAt place.2).refused = true ∨
      place.1 = 0 ∧ (entryAt place.2).leaf = false := by
  induction levels generalizing table with
  | zero => simp [walk]
  | succ level ih =>
      unfold walk visited
      simp only [Nat.succ_ne_zero, false_or, List.mem_cons]
      generalize entryPlace : (level, table + 8 * vpn va level) = place
      have at_ : entryAt (table + 8 * vpn va level) = entryAt place.2 := by rw [← entryPlace]
      have depth : place.1 = level := by rw [← entryPlace]
      rw [at_]
      by_cases refused : (entryAt place.2).refused = true
      · rw [if_pos refused]
        exact iff_of_true rfl ⟨place, .inl rfl, .inl refused⟩
      rw [if_neg refused]
      by_cases leaf : (entryAt place.2).leaf = true
      · rw [if_pos leaf]
        refine iff_of_false (Option.some_ne_none _) ?_
        simp [refused, leaf]
      rw [if_neg leaf, ih, if_neg (by simp [refused, leaf])]
      rw [Bool.not_eq_true] at refused leaf
      constructor
      · rintro (last | ⟨other, member, ends⟩)
        · exact ⟨place, .inl rfl, .inr ⟨depth.trans last, leaf⟩⟩
        · exact ⟨other, .inr member, ends⟩
      · rintro ⟨other, rfl | member, ends⟩
        · rcases ends with bad | ⟨last, -⟩
          · rw [refused] at bad
            cases bad
          · exact .inl (depth.symm.trans last)
        · exact .inr ⟨other, member, ends⟩

end Sv39

end Riscv2os.Std
