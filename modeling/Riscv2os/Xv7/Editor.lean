import Mathlib.Data.List.GetD
import Mathlib.Tactic
import Riscv2os.Std.Loops

/-!
# The line editor

`replace0` of `editor.c`, which lists, inserts, replaces and deletes lines in one pass over the text, and the
commands that call it. A string is the list of its characters in front of the zero; `newText` is an array, which
keeps what an earlier command left in it.
-/

namespace Riscv2os.Xv7

open Riscv2os.Std

/-- The size of the array for a line, with its zero. -/
def SMAX : Nat := 128

/-- The size of the arrays for a text, with its zero. -/
def TMAX : Nat := 1024

namespace Editor

/-- `'\n'`. -/
def NL : UInt8 := 10

/-- A write behind the end of an array. -/
inductive Fault where
  | overflow
deriving DecidableEq, Repr

/-- The variables of `replace0` that change: `line`, `np` as an index, the array, and the lines that are printed
with their numbers. -/
structure Pass where
  line : Int
  np : Nat
  newText : Nat → UInt8
  printed : List (Int × List UInt8)

namespace Pass

/-- `memcpy(np, bytes)`. -/
def memcpy (s : Pass) (bytes : List UInt8) : Except Fault Pass :=
  if s.np + bytes.length ≤ TMAX then
    .ok { s with newText := fun k =>
      if s.np ≤ k ∧ k < s.np + bytes.length then bytes.getD (k - s.np) 0 else s.newText k }
  else .error .overflow

/-- `np += n`. -/
def advance (s : Pass) (n : Nat) : Pass := { s with np := s.np + n }

/-- Bytes and a zero behind them, to which `np` points then. -/
def put (s : Pass) (bytes : List UInt8) : Except Fault Pass := do
  let s ← s.memcpy (bytes ++ [0])
  return s.advance bytes.length

end Pass

section Replace

variable (lmin lmax : Int) (block : List UInt8)

/-- The `if` of `replace0` at the end of a line: the line is printed, or copied. `more` says that it ends in a
newline. -/
def takeLine (s : Pass) (start : List UInt8) (more : Bool) : Except Fault Pass :=
  let line := s.line + 1
  if lmin ≤ line ∧ line ≤ lmax then
    if start.length < SMAX then .ok { s with line := line, printed := s.printed ++ [(line, start)] }
    else .error .overflow
  else Pass.put { s with line := line } (start ++ if more then [NL] else [])

/-- The end of a line. -/
def endLine (s : Pass) (start : List UInt8) (more : Bool) : Except Fault Pass := do
  let s ← takeLine lmin lmax s start more
  if s.line = lmin then s.put block else return s

/-- The loop of `replace0`, with the characters from `start` to `p` and the text from `p` on. -/
def replaceFrom : List UInt8 → List UInt8 → Pass → Except Fault Pass
  | start, [], s => endLine lmin lmax block s start false
  | start, c :: p, s =>
      if c = NL then do
        let s ← endLine lmin lmax block s start true
        replaceFrom [] p s
      else replaceFrom (start ++ [c]) p s

/-- `replace0`. -/
def replace0 (text : List UInt8) (newText : Nat → UInt8) : Except Fault Pass :=
  replaceFrom lmin lmax block [] text ⟨0, 0, newText, []⟩

end Replace

/-- The string in an array. -/
def stringOf (array : Nat → UInt8) : List UInt8 := ((List.range TMAX).map array).takeWhile (· ≠ 0)

end Editor

/-- `text` and `newText`. -/
structure Editor where
  text : List UInt8
  newText : Nat → UInt8

namespace Editor

/-- `strcpy(text, newText)`. -/
def copyBack (s : Pass) : Except Fault Editor :=
  if (stringOf s.newText).length < TMAX then .ok ⟨stringOf s.newText, s.newText⟩ else .error .overflow

/-- `list`. -/
def list (e : Editor) (lmin lmax : Int) : Except Fault Editor := do
  let s ← replace0 lmin lmax [] e.text e.newText
  return { e with newText := s.newText }

/-- `replace`, with the lines that are typed in. -/
def replace (e : Editor) (lmin lmax : Int) (block : List UInt8) : Except Fault Editor := do
  copyBack (← replace0 lmin lmax block e.text e.newText)

/-- `insert`, with the lines that are typed in. -/
def insert (e : Editor) (lmin : Int) (block : List UInt8) : Except Fault Editor := do
  copyBack (← replace0 lmin (lmin - 1) block e.text e.newText)

/-- `delete`. -/
def delete (e : Editor) (lmin lmax : Int) : Except Fault Editor := do
  copyBack (← replace0 lmin lmax [] e.text e.newText)

/-- The lines of a text, without their newlines. Behind the last newline there is one more. -/
def linesOf (text : List UInt8) : List (List UInt8) := text.splitOn NL

/-- A line as it stands in the text before the lines `after`. -/
def lineBytes (l : List UInt8) (after : List (List UInt8)) : List UInt8 := l ++ if after = [] then [] else [NL]

/-- The text of these lines. -/
def unlines : List (List UInt8) → List UInt8
  | [] => []
  | l :: after => lineBytes l after ++ unlines after

section Specification

variable (lmin lmax : Int) (block : List UInt8)

/-- What remains of the line with this number. -/
def keptLine (i : Int) (l : List UInt8) (after : List (List UInt8)) : List UInt8 :=
  if lmin ≤ i ∧ i ≤ lmax then [] else lineBytes l after

/-- What the line with this number should become: the block comes in its place, or before it. -/
def expectedLine (i : Int) (l : List UInt8) (after : List (List UInt8)) : List UInt8 :=
  (if i = lmin then block else []) ++ keptLine lmin lmax i l after

/-- What the lines from this number on should become. -/
def expectedFrom : Int → List (List UInt8) → List UInt8
  | _, [] => []
  | i, l :: after => expectedLine lmin lmax block i l after ++ expectedFrom (i + 1) after

/-- What the text should become: the lines outside the range, with the block at the place of line `lmin`. -/
def expected (text : List UInt8) : List UInt8 := expectedFrom lmin lmax block 1 (linesOf text)

/-- What `replace0` writes for the line with this number: the block comes in its place, or behind it. -/
def writtenLine (i : Int) (l : List UInt8) (after : List (List UInt8)) : List UInt8 :=
  keptLine lmin lmax i l after ++ if i = lmin then block else []

/-- What `replace0` writes for the lines from this number on. -/
def writtenFrom : Int → List (List UInt8) → List UInt8
  | _, [] => []
  | i, l :: after => writtenLine lmin lmax block i l after ++ writtenFrom (i + 1) after

/-- What `replace0` writes. -/
def written (text : List UInt8) : List UInt8 := writtenFrom lmin lmax block 1 (linesOf text)

/-- Whether `replace0` writes anything, from the line with this number on. -/
def Writes : Int → List (List UInt8) → Prop
  | _, [] => False
  | i, _ :: after => ¬ (lmin ≤ i ∧ i ≤ lmax) ∨ i = lmin ∨ Writes (i + 1) after

end Specification

/-- Whole lines, as they are typed in. -/
def fullLines (lines : List (List UInt8)) : List UInt8 := (lines.map (· ++ [NL])).flatten

/-- A string that the arrays hold, and whose lines fit the array for one. -/
structure Fits (text : List UInt8) : Prop where
  nonzero : (0 : UInt8) ∉ text
  lines : ∀ l ∈ linesOf text, l.length < SMAX
  length : text.length < TMAX

section Lines

/-! ## Lines -/

variable {start text : List UInt8} {lines : List (List UInt8)}

theorem unlines_eq (lines : List (List UInt8)) : unlines lines = [NL].intercalate lines := by
  induction lines with
  | nil => rfl
  | cons l after ih =>
      cases after with
      | nil => simp [unlines, lineBytes, List.intercalate_singleton]
      | cons l' after =>
          rw [unlines, ih, List.intercalate_cons_cons, lineBytes, if_neg (List.cons_ne_nil l' after)]

theorem unlines_linesOf (text : List UInt8) : unlines (linesOf text) = text := by
  rw [unlines_eq]
  exact List.intercalate_splitOn NL

theorem linesOf_unlines (plain : ∀ l ∈ lines, NL ∉ l) (some : lines ≠ []) :
    linesOf (unlines lines) = lines := by
  rw [unlines_eq]
  exact List.splitOn_intercalate NL plain some

end Lines

section Loop

/-! ## The pass over the lines -/

variable {lmin lmax : Int} {block bytes : List UInt8} {s s' s'' : Pass} {written : List UInt8}

/-- The loop of `replace0`, line by line. -/
def endLines (lmin lmax : Int) (block : List UInt8) : List (List UInt8) → Pass → Except Fault Pass
  | [], s => .ok s
  | l :: after, s => do
      let s ← endLine lmin lmax block s l (!after.isEmpty)
      endLines lmin lmax block after s

theorem replaceFrom_eq {start : List UInt8} (text : List UInt8) (plain : NL ∉ start) (s : Pass) :
    replaceFrom lmin lmax block start text s = endLines lmin lmax block (linesOf (start ++ text)) s := by
  induction text generalizing start s with
  | nil =>
      unfold linesOf
      rw [List.append_nil, List.splitOn_eq_singleton plain]
      exact (bind_pure _).symm
  | cons c text ih =>
      unfold replaceFrom
      by_cases newline : c = NL
      · rw [if_pos newline, newline, linesOf, List.splitOn_append_cons_self_of_not_mem plain, endLines]
        have more : (!(text.splitOn NL).isEmpty) = true := by
          rw [Bool.not_eq_true', List.isEmpty_eq_false_iff]
          exact List.splitOn_ne_nil NL text
        rw [more]
        exact bind_congr fun s => ih List.not_mem_nil s
      · rw [if_neg newline, ih (by simpa using ⟨plain, Ne.symm newline⟩), List.append_assoc]
        rfl

/-- The array begins with these bytes, and `np` points behind them. -/
structure Holds (s : Pass) (written : List UInt8) : Prop where
  np : s.np = written.length
  bytes : ∀ k < written.length, s.newText k = written.getD k 0

/-- From `s` to `s'` these bytes were added, with a zero behind them if `writes`; otherwise nothing changed. -/
structure Wrote (s s' : Pass) (written bytes : List UInt8) (writes : Prop) : Prop where
  holds : Holds s' (written ++ bytes)
  ended : writes → s'.newText s'.np = 0
  kept : ¬ writes → s'.newText = s.newText ∧ s'.np = s.np

theorem Wrote.none (holds : Holds s written) : Wrote s s written [] False where
  holds := by rwa [List.append_nil]
  ended := False.elim
  kept _ := ⟨rfl, rfl⟩

theorem Wrote.trans {bytes' : List UInt8} {writes writes' : Prop} (first : Wrote s s' written bytes writes)
    (second : Wrote s' s'' (written ++ bytes) bytes' writes') :
    Wrote s s'' written (bytes ++ bytes') (writes ∨ writes') where
  holds := by
    rw [← List.append_assoc]
    exact second.holds
  ended either := by
    by_cases again : writes'
    · exact second.ended again
    · obtain ⟨newText, np⟩ := second.kept again
      rw [newText, np]
      exact first.ended (either.resolve_right again)
  kept neither := by
    obtain ⟨newText, np⟩ := first.kept fun one => neither (.inl one)
    obtain ⟨newText', np'⟩ := second.kept fun other => neither (.inr other)
    exact ⟨newText'.trans newText, np'.trans np⟩

/-- Bytes that fit are added. -/
theorem put_ok (holds : Holds s written) (fits : (written ++ bytes).length < TMAX) :
    ∃ s', s.put bytes = .ok s' ∧ s'.line = s.line ∧ Wrote s s' written bytes True := by
  rw [List.length_append] at fits
  have room : s.np + (bytes ++ [0]).length ≤ TMAX := by
    rw [holds.np, List.length_append, List.length_singleton]
    exact fits
  unfold Pass.put Pass.memcpy
  rw [if_pos room]
  refine ⟨_, rfl, rfl, ⟨?_, ?_⟩, fun _ => ?_, fun none => absurd trivial none⟩
  · show s.np + bytes.length = _
    rw [holds.np, List.length_append]
  · intro k inside
    rw [List.length_append] at inside
    show (if s.np ≤ k ∧ k < s.np + (bytes ++ [0]).length then (bytes ++ [0]).getD (k - s.np) 0
      else s.newText k) = _
    rw [holds.np, List.length_append, List.length_singleton]
    by_cases early : k < written.length
    · rw [if_neg (by omega), List.getD_append _ _ _ _ early]
      exact holds.bytes k early
    · rw [if_pos (by omega), List.getD_append_right _ _ _ _ (not_lt.mp early),
        List.getD_append _ _ _ _ (by omega)]
  · show (if s.np ≤ s.np + bytes.length ∧ s.np + bytes.length < s.np + (bytes ++ [0]).length then
      (bytes ++ [0]).getD (s.np + bytes.length - s.np) 0 else s.newText (s.np + bytes.length)) = 0
    rw [List.length_append, List.length_singleton, if_pos (by omega), Nat.add_sub_cancel_left,
      List.getD_append_right _ _ _ _ le_rfl, Nat.sub_self]
    rfl

theorem lineBytes_eq (l : List UInt8) (after : List (List UInt8)) :
    (l ++ if !after.isEmpty then [NL] else []) = lineBytes l after := by
  cases after <;> rfl

/-- A line in the range is left out. -/
theorem takeLine_ok (lmin lmax : Int) (holds : Holds s written) {l : List UInt8} (after : List (List UInt8))
    (short : l.length < SMAX) (fits : (written ++ keptLine lmin lmax (s.line + 1) l after).length < TMAX) :
    ∃ s', takeLine lmin lmax s l (!after.isEmpty) = .ok s' ∧ s'.line = s.line + 1 ∧
      Wrote s s' written (keptLine lmin lmax (s.line + 1) l after)
        (¬ (lmin ≤ s.line + 1 ∧ s.line + 1 ≤ lmax)) := by
  unfold takeLine keptLine at *
  simp only
  by_cases range : lmin ≤ s.line + 1 ∧ s.line + 1 ≤ lmax
  · rw [if_pos range, if_pos range, if_pos short]
    refine ⟨_, rfl, rfl, ?_, fun outside => absurd range outside, fun _ => ⟨rfl, rfl⟩⟩
    rw [List.append_nil]
    exact ⟨holds.np, holds.bytes⟩
  · rw [if_neg range] at fits
    rw [if_neg range, if_neg range, lineBytes_eq]
    have held : Holds { s with line := s.line + 1 } written := ⟨holds.np, holds.bytes⟩
    obtain ⟨s', put, line, wrote⟩ := put_ok held fits
    exact ⟨s', put, line, wrote.holds, fun _ => wrote.ended trivial, fun inside => absurd range inside⟩

/-- One line. -/
theorem endLine_ok (lmin lmax : Int) (block : List UInt8) (holds : Holds s written) {l : List UInt8}
    (after : List (List UInt8)) (short : l.length < SMAX)
    (fits : (written ++ writtenLine lmin lmax block (s.line + 1) l after).length < TMAX) :
    ∃ s', endLine lmin lmax block s l (!after.isEmpty) = .ok s' ∧ s'.line = s.line + 1 ∧
      Wrote s s' written (writtenLine lmin lmax block (s.line + 1) l after)
        (¬ (lmin ≤ s.line + 1 ∧ s.line + 1 ≤ lmax) ∨ s.line + 1 = lmin) := by
  rw [writtenLine, ← List.append_assoc] at fits
  obtain ⟨s', took, line, wrote⟩ := takeLine_ok lmin lmax holds after short (by
    rw [List.length_append] at fits
    exact Nat.lt_of_le_of_lt (Nat.le_add_right ..) fits)
  rw [endLine, took, writtenLine]
  show ∃ s'', (if s'.line = lmin then s'.put block else .ok s') = .ok s'' ∧ _
  rw [line]
  by_cases place : s.line + 1 = lmin
  · rw [if_pos place] at fits
    rw [if_pos place, if_pos place]
    obtain ⟨s'', put, line', wrote'⟩ := put_ok wrote.holds fits
    have both := wrote.trans wrote'
    exact ⟨s'', put, line'.trans line, both.holds, fun _ => both.ended (.inr trivial),
      fun none => absurd (.inr place) none⟩
  · rw [if_neg place, if_neg place, List.append_nil]
    exact ⟨s', rfl, line, wrote.holds, fun either => wrote.ended (either.resolve_right place),
      fun none => wrote.kept fun outside => none (.inl outside)⟩

/-- All lines. -/
theorem endLines_ok (lmin lmax : Int) (block : List UInt8) {lines : List (List UInt8)}
    (holds : Holds s written) (short : ∀ l ∈ lines, l.length < SMAX)
    (fits : (written ++ writtenFrom lmin lmax block (s.line + 1) lines).length < TMAX) :
    ∃ s', endLines lmin lmax block lines s = .ok s' ∧
      Wrote s s' written (writtenFrom lmin lmax block (s.line + 1) lines)
        (Writes lmin lmax (s.line + 1) lines) := by
  induction lines generalizing s written with
  | nil => exact ⟨s, rfl, .none holds⟩
  | cons l after ih =>
      rw [writtenFrom, ← List.append_assoc] at fits
      obtain ⟨s', ended, line, wrote⟩ := endLine_ok lmin lmax block holds after
        (short l List.mem_cons_self) (by
          rw [List.length_append] at fits
          exact Nat.lt_of_le_of_lt (Nat.le_add_right ..) fits)
      obtain ⟨s'', rest, wrote'⟩ := ih wrote.holds
        (fun l' member => short l' (List.mem_cons_of_mem _ member))
        (by rw [line]; exact fits)
      refine ⟨s'', ?_, ?_⟩
      · rw [endLines, ended]
        exact rest
      · rw [line] at wrote'
        have both := wrote.trans wrote'
        rwa [or_assoc] at both

/-- The string that a terminated array holds. -/
theorem stringOf_of_holds (holds : Holds s written) (ended : s.newText s.np = 0) (nonzero : 0 ∉ written)
    (fits : written.length < TMAX) : stringOf s.newText = written := by
  obtain ⟨more, room⟩ := Nat.exists_eq_add_of_lt fits
  have front : (List.range written.length).map s.newText = written := by
    refine List.ext_getElem (by simp) fun k _ inside => ?_
    rw [List.getElem_map, List.getElem_range, holds.bytes k inside, List.getD_eq_getElem _ _ inside]
  have back : s.newText (written.length + 0) = 0 := by
    rw [Nat.add_zero, ← holds.np]
    exact ended
  unfold stringOf
  rw [room, Nat.add_assoc, List.range_add, List.map_append, front, List.range_succ_eq_map, List.map_cons,
    List.map_cons, back, List.takeWhile_append_of_pos fun c member => by
      rw [decide_eq_true_eq]
      rintro rfl
      exact nonzero member]
  simp

/-- Bytes other than zero stay so. -/
theorem zero_not_mem_writtenFrom (i : Int) {lines : List (List UInt8)} (text : ∀ l ∈ lines, (0 : UInt8) ∉ l)
    (typed : (0 : UInt8) ∉ block) : (0 : UInt8) ∉ writtenFrom lmin lmax block i lines := by
  induction lines generalizing i with
  | nil => exact List.not_mem_nil
  | cons l after ih =>
      have line := text l List.mem_cons_self
      have rest := ih (i + 1) fun l' member => text l' (List.mem_cons_of_mem _ member)
      have newline : (0 : UInt8) ≠ NL := by decide
      unfold writtenFrom writtenLine keptLine lineBytes
      rw [List.mem_append, List.mem_append]
      rintro ((kept | typedHere) | later)
      · split at kept
        · cases kept
        · rw [List.mem_append] at kept
          rcases kept with here | here
          · exact line here
          · split at here
            · cases here
            · exact newline (List.mem_singleton.mp here)
      · split at typedHere
        · exact typed typedHere
        · cases typedHere
      · exact rest later

end Loop

section Compare

/-! ## What is written and what is expected -/

variable {lmin lmax : Int} {block : List UInt8}

theorem writtenLine_eq_iff (i : Int) (l : List UInt8) (after : List (List UInt8)) :
    writtenLine lmin lmax block i l after = expectedLine lmin lmax block i l after ↔
      lmin ≤ lmax ∨ (i = lmin → block ++ lineBytes l after = lineBytes l after ++ block) := by
  unfold writtenLine expectedLine keptLine
  by_cases place : i = lmin
  · rw [if_pos place, place]
    by_cases range : lmin ≤ lmax
    · rw [if_pos ⟨le_rfl, range⟩, List.append_nil]
      exact iff_of_true rfl (.inl range)
    · rw [if_neg fun inside => range inside.2, or_iff_right range]
      exact ⟨fun same _ => same.symm, fun same => (same rfl).symm⟩
  · rw [if_neg place, List.append_nil]
    exact iff_of_true rfl (.inr fun here => absurd here place)

theorem length_writtenLine (i : Int) (l : List UInt8) (after : List (List UInt8)) :
    (writtenLine lmin lmax block i l after).length = (expectedLine lmin lmax block i l after).length := by
  unfold writtenLine expectedLine
  rw [List.length_append, List.length_append, Nat.add_comm]

theorem length_writtenFrom (i : Int) (lines : List (List UInt8)) :
    (writtenFrom lmin lmax block i lines).length = (expectedFrom lmin lmax block i lines).length := by
  induction lines generalizing i with
  | nil => rfl
  | cons l after ih =>
      rw [writtenFrom, expectedFrom, List.length_append, List.length_append, length_writtenLine, ih]

/-- The block commutes with line `lmin`, if there is one from this number on. -/
def Commutes (lmin : Int) (block : List UInt8) (i : Int) (lines : List (List UInt8)) : Prop :=
  ∀ before l after, lines = before ++ l :: after → i + before.length = lmin →
    block ++ lineBytes l after = lineBytes l after ++ block

theorem commutes_cons (i : Int) (l : List UInt8) (after : List (List UInt8)) :
    Commutes lmin block i (l :: after) ↔
      (i = lmin → block ++ lineBytes l after = lineBytes l after ++ block) ∧
        Commutes lmin block (i + 1) after := by
  constructor
  · intro commutes
    refine ⟨fun place => commutes [] l after rfl (by simpa using place), fun before l' after' parts place => ?_⟩
    refine commutes (l :: before) l' after' (by rw [parts]; rfl) ?_
    rw [List.length_cons]
    push_cast
    omega
  · rintro ⟨here, later⟩ before l' after' parts place
    cases before with
    | nil =>
        cases parts
        exact here (by simpa using place)
    | cons first before =>
        cases parts
        refine later before l' after' rfl ?_
        rw [List.length_cons] at place
        push_cast at place
        omega

theorem writtenFrom_eq_iff (i : Int) (lines : List (List UInt8)) :
    writtenFrom lmin lmax block i lines = expectedFrom lmin lmax block i lines ↔
      lmin ≤ lmax ∨ Commutes lmin block i lines := by
  induction lines generalizing i with
  | nil =>
      refine iff_of_true rfl (.inr fun before l after parts => ?_)
      exact absurd parts.symm (by simp)
  | cons l after ih =>
      have split : writtenFrom lmin lmax block i (l :: after) = expectedFrom lmin lmax block i (l :: after) ↔
          writtenLine lmin lmax block i l after = expectedLine lmin lmax block i l after ∧
            writtenFrom lmin lmax block (i + 1) after = expectedFrom lmin lmax block (i + 1) after :=
        ⟨fun same => List.append_inj same (length_writtenLine i l after), fun same => congrArg₂ _ same.1 same.2⟩
      rw [split, writtenLine_eq_iff, ih, commutes_cons]
      tauto

/-- Nothing is written when all lines are in the range and none of them is line `lmin`. -/
theorem writes_iff (i : Int) (lines : List (List UInt8)) :
    Writes lmin lmax i lines ↔ lines ≠ [] ∧ ¬ (lmin < i ∧ i + lines.length ≤ lmax + 1) := by
  induction lines generalizing i with
  | nil => simp [Writes]
  | cons l after ih =>
      rw [Writes, ih]
      cases after with
      | nil =>
          simp only [ne_eq, not_true_eq_false, false_and, or_false, reduceCtorEq, not_false_eq_true, true_and,
            List.length_singleton]
          omega
      | cons l' after =>
          simp only [ne_eq, reduceCtorEq, not_false_eq_true, true_and, List.length_cons]
          push_cast
          omega

end Compare

section Commands

/-! ## The commands -/

variable {text block : List UInt8} {lmin lmax : Int}

theorem mem_unlines {lines : List (List UInt8)} {l : List UInt8} (member : l ∈ lines) {c : UInt8}
    (inside : c ∈ l) : c ∈ unlines lines := by
  induction lines with
  | nil => cases member
  | cons first after ih =>
      rw [unlines, lineBytes, List.mem_append, List.mem_append]
      rcases List.mem_cons.mp member with rfl | later
      · exact .inl (.inl inside)
      · exact .inr (ih later)

theorem zero_not_mem_lines (nonzero : (0 : UInt8) ∉ text) : ∀ l ∈ linesOf text, (0 : UInt8) ∉ l := by
  intro l member zero
  have inText := mem_unlines member zero
  rw [unlines_linesOf] at inText
  exact nonzero inText

/-- `replace0` returns, and leaves what it writes, or the array as it was. -/
theorem replace0_ok (lmin lmax : Int) (fits : Fits text) (typed : (0 : UInt8) ∉ block)
    (room : (written lmin lmax block text).length < TMAX) (newText : Nat → UInt8) :
    ∃ s, replace0 lmin lmax block text newText = .ok s ∧
      (Writes lmin lmax 1 (linesOf text) → stringOf s.newText = written lmin lmax block text) ∧
      (¬ Writes lmin lmax 1 (linesOf text) → s.newText = newText) := by
  have holds : Holds ⟨0, 0, newText, []⟩ [] := ⟨rfl, fun k none => absurd none k.not_lt_zero⟩
  obtain ⟨s, ran, wrote⟩ := endLines_ok lmin lmax block holds fits.lines room
  refine ⟨s, ?_, fun writes => ?_, fun none => (wrote.kept none).1⟩
  · rw [replace0, replaceFrom_eq text List.not_mem_nil]
    exact ran
  · exact stringOf_of_holds wrote.holds (wrote.ended writes)
      (zero_not_mem_writtenFrom 1 (zero_not_mem_lines fits.nonzero) typed) room

theorem linesOf_ne_nil (text : List UInt8) : linesOf text ≠ [] := List.splitOn_ne_nil NL text

/-- Something is written for this text. -/
theorem writes_linesOf (lmin lmax : Int) (text : List UInt8) :
    Writes lmin lmax 1 (linesOf text) ↔ ¬ (lmin < 1 ∧ (linesOf text).length ≤ lmax) := by
  rw [writes_iff, and_iff_right (linesOf_ne_nil text)]
  omega

theorem expectedFrom_of_not_writes (i : Int) {lines : List (List UInt8)} (none : ¬ Writes lmin lmax i lines) :
    expectedFrom lmin lmax block i lines = [] := by
  induction lines generalizing i with
  | nil => rfl
  | cons l after ih =>
      rw [Writes, not_or, not_or, not_not] at none
      obtain ⟨range, elsewhere, later⟩ := none
      rw [expectedFrom, expectedLine, keptLine, if_neg elsewhere, if_pos range, ih _ later]
      rfl

/-- What an earlier command may have left in the array. -/
def stale : Nat → UInt8 := fun k => if k = 0 then 120 else 0

theorem stringOf_stale : stringOf stale = [120] := by
  refine stringOf_of_holds (s := ⟨0, 1, stale, []⟩) ⟨rfl, fun k inside => ?_⟩ rfl (by decide) (by decide)
  rw [List.length_singleton, Nat.lt_one_iff] at inside
  rw [inside]
  rfl

theorem length_written (lmin lmax : Int) (block text : List UInt8) :
    (written lmin lmax block text).length = (expected lmin lmax block text).length :=
  length_writtenFrom 1 (linesOf text)

/-- When a pass over the text leaves what it should, whatever was in the array. -/
theorem replace0_iff (lmin lmax : Int) (fits : Fits text) (typed : (0 : UInt8) ∉ block)
    (room : (expected lmin lmax block text).length < TMAX) :
    (∀ newText, ∃ s, replace0 lmin lmax block text newText = .ok s ∧
      stringOf s.newText = expected lmin lmax block text) ↔
      ¬ (lmin < 1 ∧ (linesOf text).length ≤ lmax) ∧ (lmin ≤ lmax ∨ Commutes lmin block 1 (linesOf text)) := by
  have pass := replace0_ok lmin lmax fits typed (by rwa [length_written])
  rw [← writes_linesOf, ← writtenFrom_eq_iff]
  constructor
  · intro replaces
    have writes : Writes lmin lmax 1 (linesOf text) := by
      by_contra none
      obtain ⟨s, ran, -, kept⟩ := pass stale
      obtain ⟨s', ran', same⟩ := replaces stale
      obtain rfl : s = s' := Except.ok.inj (ran.symm.trans ran')
      rw [kept none, stringOf_stale, expected, expectedFrom_of_not_writes 1 none] at same
      cases same
    obtain ⟨s, ran, wrote, -⟩ := pass stale
    obtain ⟨s', ran', same⟩ := replaces stale
    obtain rfl : s = s' := Except.ok.inj (ran.symm.trans ran')
    exact ⟨writes, (wrote writes).symm.trans same⟩
  · rintro ⟨writes, same⟩ newText
    obtain ⟨s, ran, wrote, -⟩ := pass newText
    exact ⟨s, ran, (wrote writes).trans same⟩

theorem length_expectedFrom_delete (lmin lmax i : Int) (lines : List (List UInt8)) :
    (expectedFrom lmin lmax [] i lines).length ≤ (unlines lines).length := by
  induction lines generalizing i with
  | nil => exact le_rfl
  | cons l after ih =>
      rw [expectedFrom, expectedLine, ite_self, List.nil_append, unlines, List.length_append,
        List.length_append]
      refine Nat.add_le_add ?_ (ih (i + 1))
      unfold keptLine
      split
      · exact Nat.zero_le _
      · exact le_rfl

theorem length_expected_delete (lmin lmax : Int) (text : List UInt8) :
    (expected lmin lmax [] text).length ≤ text.length := by
  have shorter := length_expectedFrom_delete lmin lmax 1 (linesOf text)
  rwa [unlines_linesOf] at shorter

/-- A string that fits is copied back. -/
theorem copyBack_ok {s : Pass} (room : (stringOf s.newText).length < TMAX) :
    copyBack s = .ok ⟨stringOf s.newText, s.newText⟩ := if_pos room

/-- The text after a command that copies the array back. -/
theorem copyBack_iff {s : Pass} {result : List UInt8} (room : result.length < TMAX) :
    (∃ e, copyBack s = .ok e ∧ e.text = result) ↔ stringOf s.newText = result := by
  constructor
  · rintro ⟨e, copied, text⟩
    by_cases fits : (stringOf s.newText).length < TMAX
    · rw [copyBack_ok fits] at copied
      rw [← text, ← Except.ok.inj copied]
    · rw [copyBack, if_neg fits] at copied
      cases copied
  · rintro rfl
    exact ⟨_, copyBack_ok room, by dsimp only⟩

/-- When `delete` removes the lines of the range and nothing else, whatever was in the array. -/
theorem delete_iff (lmin lmax : Int) (fits : Fits text) :
    (∀ newText, ∃ e, delete ⟨text, newText⟩ lmin lmax = .ok e ∧ e.text = expected lmin lmax [] text) ↔
      ¬ (lmin < 1 ∧ (linesOf text).length ≤ lmax) := by
  have room := Nat.lt_of_le_of_lt (length_expected_delete lmin lmax text) fits.length
  have pass := replace0_iff lmin lmax fits List.not_mem_nil room
  have commutes : Commutes lmin [] 1 (linesOf text) := fun before l after _ _ => (List.append_nil _).symm
  rw [and_iff_left (.inr commutes)] at pass
  rw [← pass]
  refine forall_congr' fun newText => ?_
  obtain ⟨s, ran, -⟩ := replace0_ok lmin lmax fits List.not_mem_nil (by rwa [length_written]) newText
  have copies : delete ⟨text, newText⟩ lmin lmax = copyBack s := by
    unfold delete
    rw [ran]
    exact pure_bind s copyBack
  rw [copies, copyBack_iff room, ran]
  constructor
  · exact fun same => ⟨s, rfl, same⟩
  · rintro ⟨s', same, text⟩
    rwa [Except.ok.inj same]

/-- The text after a command that writes something. -/
theorem copyBack_replace0 (lmin lmax : Int) (fits : Fits text) (typed : (0 : UInt8) ∉ block)
    (room : (written lmin lmax block text).length < TMAX) (some : ¬ (lmin < 1 ∧ (linesOf text).length ≤ lmax))
    (newText : Nat → UInt8) :
    ∃ e, replace0 lmin lmax block text newText >>= copyBack = .ok e ∧
      e.text = written lmin lmax block text := by
  obtain ⟨s, ran, wrote, -⟩ := replace0_ok lmin lmax fits typed room newText
  have copies : (Except.ok s : Except Fault Pass) >>= copyBack = copyBack s := pure_bind s copyBack
  rw [ran, copies, copyBack_iff room]
  exact wrote ((writes_linesOf lmin lmax text).mpr some)

/-! ## Inserting lines and deleting them -/

variable {before after bs lines rest : List (List UInt8)} {l : List UInt8}

theorem unlines_append (before : List (List UInt8)) (some : rest ≠ []) :
    unlines (before ++ rest) = fullLines before ++ unlines rest := by
  induction before with
  | nil => rfl
  | cons first before ih =>
      have more : before ++ rest ≠ [] := List.append_ne_nil_of_right_ne_nil before some
      rw [List.cons_append, unlines, lineBytes, if_neg more, ih, ← List.append_assoc]
      rfl

/-- The lines in front of line `lmin` are copied. -/
theorem writtenFrom_front (block : List UInt8) (i : Int) (some : rest ≠ [])
    (front : i + before.length ≤ lmin) :
    writtenFrom lmin lmax block i (before ++ rest) =
      fullLines before ++ writtenFrom lmin lmax block (i + before.length) rest := by
  induction before generalizing i with
  | nil => simp [fullLines]
  | cons first before ih =>
      rw [List.length_cons] at *
      push_cast at *
      have more : before ++ rest ≠ [] := List.append_ne_nil_of_right_ne_nil before some
      rw [List.cons_append, writtenFrom, writtenLine, keptLine, if_neg (by omega), if_neg (by omega), lineBytes,
        if_neg more, ih (i + 1) (by omega), List.append_nil, ← List.append_assoc, add_assoc i 1,
        add_comm (1 : Int)]
      rfl

/-- The lines behind the range are copied. -/
theorem writtenFrom_back (i : Int) (lines : List (List UInt8)) (behind : lmin < i ∨ block = [])
    (outside : lmax < i) : writtenFrom lmin lmax block i lines = unlines lines := by
  induction lines generalizing i with
  | nil => rfl
  | cons l after ih =>
      have nothing : (if i = lmin then block else []) = [] := by
        split
        · exact behind.resolve_left (by omega)
        · rfl
      rw [writtenFrom, writtenLine, keptLine, if_neg (by omega), nothing, List.append_nil,
        ih (i + 1) (behind.imp_left fun before => by omega) (by omega)]
      rfl

/-- The lines of the range are left out. -/
theorem writtenFrom_drop (i : Int) (lines : List (List UInt8)) (reached : lmin ≤ i) (n : Nat)
    (last : lmax + 1 = i + n) :
    writtenFrom lmin lmax [] i lines = unlines (lines.drop n) := by
  induction n generalizing i lines with
  | zero => exact writtenFrom_back i lines (.inr rfl) (by omega)
  | succ n ih =>
      cases lines with
      | nil => rfl
      | cons l after =>
          rw [writtenFrom, writtenLine, ite_self, List.append_nil, keptLine, if_pos (by omega),
            ih (i + 1) after (by omega) (by omega)]
          rfl

/-- The lines from line `lmin` on, when the lines `bs` are typed in at it: behind a last line without a newline,
the first of them joins it. -/
def insertedLines (l : List UInt8) (bs after : List (List UInt8)) : List (List UInt8) :=
  match after, bs with
  | [], [] => [l]
  | [], b :: bs => (l ++ b) :: bs ++ [[]]
  | l' :: after, bs => l :: bs ++ l' :: after

theorem length_insertedLines (l : List UInt8) (bs after : List (List UInt8)) :
    bs.length < (insertedLines l bs after).length := by
  unfold insertedLines
  split <;> simp

theorem unlines_insertedLines (l : List UInt8) (bs after : List (List UInt8)) :
    unlines (insertedLines l bs after) = lineBytes l after ++ fullLines bs ++ unlines after := by
  cases after with
  | nil =>
      cases bs with
      | nil => simp [insertedLines, unlines, lineBytes, fullLines]
      | cons b bs =>
          rw [insertedLines, unlines_append _ (List.cons_ne_nil [] [])]
          simp [unlines, lineBytes, fullLines]
  | cons l' after =>
      rw [insertedLines, unlines_append _ (List.cons_ne_nil l' after)]
      simp [lineBytes, fullLines]

/-- The lines behind as many as were typed in. -/
theorem drop_insertedLines (l : List UInt8) (bs after : List (List UInt8)) :
    (insertedLines l bs after).drop bs.length =
      (if bs = [] then l else if after = [] then [] else bs.getLastD l) :: after := by
  rcases List.eq_nil_or_concat bs with rfl | ⟨front, b, rfl⟩
  · cases after <;> rfl
  · cases after with
    | nil => cases front <;> simp [insertedLines]
    | cons l' after => simp [insertedLines]

/-- When the line there is the one that was line `lmin`. -/
theorem drop_insertedLines_eq_iff (l : List UInt8) (bs after : List (List UInt8)) :
    (insertedLines l bs after).drop bs.length = l :: after ↔
      bs = [] ∨ (after ≠ [] ∧ bs.getLast? = some l) ∨ (after = [] ∧ l = []) := by
  rw [drop_insertedLines, List.cons_eq_cons, and_iff_left rfl]
  rcases List.eq_nil_or_concat bs with rfl | ⟨front, b, rfl⟩
  · simp
  · by_cases last : after = []
    · simp [last, @eq_comm _ _ l]
    · simp [last]

theorem plain_insertedLines (line : NL ∉ l) (typed : ∀ b ∈ bs, NL ∉ b) (later : ∀ l' ∈ after, NL ∉ l') :
    ∀ l' ∈ insertedLines l bs after, NL ∉ l' := by
  intro l' member
  cases after with
  | nil =>
      cases bs with
      | nil => simp_all [insertedLines]
      | cons b bs =>
          simp only [insertedLines, List.mem_append, List.mem_cons, List.not_mem_nil, or_false] at member
          rcases member with (rfl | inside) | rfl
          · rw [List.mem_append, not_or]
            exact ⟨line, typed b List.mem_cons_self⟩
          · exact typed l' (List.mem_cons_of_mem b inside)
          · exact List.not_mem_nil
  | cons first after =>
      simp only [insertedLines, List.mem_append, List.mem_cons] at member
      rcases member with (rfl | inside) | inside
      · exact line
      · exact typed l' inside
      · exact later l' (List.mem_cons.mpr inside)

theorem plain_linesOf (text : List UInt8) : ∀ l ∈ linesOf text, NL ∉ l := by
  unfold linesOf
  induction text with
  | nil => simp
  | cons c text ih =>
      rw [List.splitOn_cons_eq_if_modifyHead]
      by_cases newline : c = NL
      · rw [if_pos (beq_iff_eq.mpr newline)]
        rintro l (_ | ⟨_, later⟩)
        · exact List.not_mem_nil
        · exact ih l later
      · rw [if_neg (by simpa using newline)]
        cases parts : text.splitOn NL with
        | nil => exact absurd parts (List.splitOn_ne_nil NL text)
        | cons first after =>
            rw [parts] at ih
            rintro l (_ | ⟨_, later⟩)
            · rw [List.mem_cons, not_or]
              exact ⟨Ne.symm newline, ih first List.mem_cons_self⟩
            · exact ih l (List.mem_cons_of_mem first later)

/-- The text with the lines `bs` typed in at the line behind `before`. -/
theorem written_insert (lines : linesOf text = before ++ l :: after) (bs : List (List UInt8)) :
    written (before.length + 1) before.length (fullLines bs) text =
      unlines (before ++ insertedLines l bs after) := by
  have some : insertedLines l bs after ≠ [] :=
    List.ne_nil_of_length_pos (Nat.zero_lt_of_lt (length_insertedLines l bs after))
  rw [written, lines, writtenFrom_front _ 1 (List.cons_ne_nil l after) (by omega), writtenFrom, writtenLine,
    keptLine, if_neg (by omega), if_pos (by omega), writtenFrom_back _ after (.inl (by omega)) (by omega),
    ← unlines_insertedLines, unlines_append before some]

/-- The text after as many lines from there on were deleted. -/
theorem written_delete {n : Nat} (plain : ∀ l ∈ before ++ rest, NL ∉ l) (more : n < rest.length) :
    written (before.length + 1) (before.length + n) [] (unlines (before ++ rest)) =
      unlines (before ++ rest.drop n) := by
  have some : rest ≠ [] := List.ne_nil_of_length_pos (Nat.zero_lt_of_lt more)
  have left : rest.drop n ≠ [] := by
    rw [Ne, List.drop_eq_nil_iff]
    omega
  rw [written, linesOf_unlines plain (List.append_ne_nil_of_right_ne_nil before some),
    writtenFrom_front [] 1 some (by omega), writtenFrom_drop _ rest (by omega) n (by omega),
    unlines_append before left]

theorem zero_not_mem_fullLines (typed : ∀ b ∈ bs, (0 : UInt8) ∉ b) : (0 : UInt8) ∉ fullLines bs := by
  unfold fullLines
  rw [List.mem_flatten]
  rintro ⟨bytes, member, zero⟩
  obtain ⟨b, typedHere, rfl⟩ := List.mem_map.mp member
  rw [List.mem_append, List.mem_singleton] at zero
  exact typed b typedHere (zero.resolve_right (by decide))

/-- When deleting the lines that were inserted restores the text, whatever was in the array. -/
theorem insert_delete_iff (fits : Fits text) (lines : linesOf text = before ++ l :: after)
    (typed : ∀ b ∈ bs, NL ∉ b ∧ (0 : UInt8) ∉ b)
    (fits' : Fits (written (before.length + 1) before.length (fullLines bs) text)) :
    (∀ newText, ∃ e e', insert ⟨text, newText⟩ (before.length + 1) (fullLines bs) = .ok e ∧
      delete e (before.length + 1) (before.length + bs.length) = .ok e' ∧ e'.text = text) ↔
      bs = [] ∨ (after ≠ [] ∧ bs.getLast? = some l) ∨ (after = [] ∧ l = []) := by
  have plain : ∀ l' ∈ before ++ l :: after, NL ∉ l' := by
    rw [← lines]
    exact plain_linesOf text
  have plain' : ∀ l' ∈ before ++ insertedLines l bs after, NL ∉ l' := by
    rw [List.forall_mem_append, List.forall_mem_cons] at plain
    rw [List.forall_mem_append]
    exact ⟨plain.1, plain_insertedLines plain.2.1 (fun b member => (typed b member).1) plain.2.2⟩
  have deleted : written (before.length + 1) (before.length + bs.length) []
      (written (before.length + 1) before.length (fullLines bs) text) =
        unlines (before ++ (insertedLines l bs after).drop bs.length) := by
    rw [written_insert lines bs]
    exact written_delete plain' (length_insertedLines l bs after)
  have both (newText : Nat → UInt8) : ∃ e e',
      insert ⟨text, newText⟩ (before.length + 1) (fullLines bs) = .ok e ∧
      delete e (before.length + 1) (before.length + bs.length) = .ok e' ∧
        e'.text = unlines (before ++ (insertedLines l bs after).drop bs.length) := by
    obtain ⟨e, inserts, text'⟩ := copyBack_replace0 _ _ fits
      (zero_not_mem_fullLines fun b member => (typed b member).2) fits'.length (by omega) newText
    rw [← text'] at fits' deleted
    have room := Nat.lt_of_le_of_lt
      (length_expected_delete (before.length + 1) (before.length + bs.length) e.text) fits'.length
    rw [← length_written] at room
    obtain ⟨e', deletes, text''⟩ := copyBack_replace0 _ _ fits' List.not_mem_nil room (by omega) e.newText
    refine ⟨e, e', ?_, deletes, text''.trans deleted⟩
    rw [insert, add_sub_cancel_right]
    exact inserts
  have restores : unlines (before ++ (insertedLines l bs after).drop bs.length) = text ↔
      (insertedLines l bs after).drop bs.length = l :: after := by
    constructor
    · intro same
      have left : (insertedLines l bs after).drop bs.length ≠ [] := by
        rw [Ne, List.drop_eq_nil_iff, not_le]
        exact length_insertedLines l bs after
      rw [← same, linesOf_unlines _ (List.append_ne_nil_of_right_ne_nil before left)] at lines
      · exact List.append_cancel_left lines
      · intro l' member
        refine plain' l' ?_
        rw [List.mem_append] at *
        exact member.imp_right List.mem_of_mem_drop
    · intro same
      rw [same, ← lines, unlines_linesOf]
  rw [← drop_insertedLines_eq_iff, ← restores]
  constructor
  · intro always
    obtain ⟨e, e', inserts, deletes, same⟩ := always stale
    obtain ⟨e₁, e₁', inserts₁, deletes₁, text₁⟩ := both stale
    obtain rfl : e = e₁ := Except.ok.inj (inserts.symm.trans inserts₁)
    obtain rfl : e' = e₁' := Except.ok.inj (deletes.symm.trans deletes₁)
    exact text₁.symm.trans same
  · intro same newText
    obtain ⟨e, e', inserts, deletes, text'⟩ := both newText
    exact ⟨e, e', inserts, deletes, text'.trans same⟩

/-- When a pass puts the block at the place of line `lmin`, when `delete` removes the lines of its range, and
when it undoes an `insert`. -/
theorem commands_iff (fits : Fits text) :
    (∀ lmin lmax block, (0 : UInt8) ∉ block → (expected lmin lmax block text).length < TMAX →
      ((∀ newText, ∃ s, replace0 lmin lmax block text newText = .ok s ∧
        stringOf s.newText = expected lmin lmax block text) ↔
        ¬ (lmin < 1 ∧ (linesOf text).length ≤ lmax) ∧ (lmin ≤ lmax ∨ Commutes lmin block 1 (linesOf text)))) ∧
    (∀ lmin lmax,
      (∀ newText, ∃ e, delete ⟨text, newText⟩ lmin lmax = .ok e ∧ e.text = expected lmin lmax [] text) ↔
        ¬ (lmin < 1 ∧ (linesOf text).length ≤ lmax)) ∧
    (∀ before l after bs, linesOf text = before ++ l :: after → (∀ b ∈ bs, NL ∉ b ∧ (0 : UInt8) ∉ b) →
      Fits (written (before.length + 1) before.length (fullLines bs) text) →
      ((∀ newText, ∃ e e', insert ⟨text, newText⟩ (before.length + 1) (fullLines bs) = .ok e ∧
        delete e (before.length + 1) (before.length + bs.length) = .ok e' ∧ e'.text = text) ↔
        bs = [] ∨ (after ≠ [] ∧ bs.getLast? = some l) ∨ (after = [] ∧ l = []))) :=
  ⟨fun lmin lmax _ typed room => replace0_iff lmin lmax fits typed room,
    fun lmin lmax => delete_iff lmin lmax fits,
    fun _ _ _ _ lines typed fits' => insert_delete_iff fits lines typed fits'⟩

theorem fits_two_lines : Fits [97, NL, 98, NL] := ⟨by decide, by decide, by decide⟩

theorem commands_iff_two_lines :
    (∀ newText, ∃ s, replace0 2 2 [120, NL] [97, NL, 98, NL] newText = .ok s ∧
      stringOf s.newText = expected 2 2 [120, NL] [97, NL, 98, NL]) ∧
    (∀ newText, ∃ e, delete ⟨[97, NL, 98, NL], newText⟩ 1 1 = .ok e ∧
      e.text = expected 1 1 [] [97, NL, 98, NL]) ∧
    ∀ newText, ∃ e e', insert ⟨[97, NL, 98, NL], newText⟩ (([[97]] : List (List UInt8)).length + 1)
        (fullLines [[120], [98]]) = .ok e ∧
      delete e (([[97]] : List (List UInt8)).length + 1)
        (([[97]] : List (List UInt8)).length + ([[120], [98]] : List (List UInt8)).length) = .ok e' ∧
      e'.text = [97, NL, 98, NL] := by
  obtain ⟨replaces, deletes, restores⟩ := commands_iff fits_two_lines
  refine ⟨(replaces 2 2 [120, NL] (by decide) (by decide)).mpr ⟨by decide, .inl (by decide)⟩,
    (deletes 1 1).mpr (by decide), (restores [[97]] [98] [[]] [[120], [98]] (by decide) (by decide)
      ⟨by decide, by decide, by decide⟩).mpr (.inr (.inl ⟨by decide, by decide⟩))⟩

/-- After `l 5 6`, `d` without numbers deletes nothing; and `i 1` inserts behind line 1. -/
theorem stale_and_behind :
    (∃ e e', list ⟨[97, NL], fun _ => 0⟩ 5 6 = .ok e ∧ delete e 0 TMAX = .ok e' ∧ e'.text = [97, NL] ∧
      expected 0 TMAX [] [97, NL] = []) ∧
    ∃ e, insert ⟨[97, NL], fun _ => 0⟩ 1 [120, NL] = .ok e ∧ e.text = [97, NL, 120, NL] ∧
      expected 1 0 [120, NL] [97, NL] = [120, NL, 97, NL] := by
  have fits : Fits [97, NL] := ⟨by decide, by decide, by decide⟩
  constructor
  · obtain ⟨s, lists, wrote, -⟩ := replace0_ok 5 6 fits List.not_mem_nil (by decide) fun _ => 0
    obtain ⟨s', deletes, -, kept⟩ := replace0_ok 0 TMAX fits List.not_mem_nil (by decide) s.newText
    have copied : stringOf s'.newText = [97, NL] := by
      rw [kept (by rw [writes_linesOf]; decide), wrote ((writes_linesOf 5 6 [97, NL]).mpr (by decide))]
      decide
    obtain ⟨e', copies, text⟩ := (copyBack_iff (by decide)).mpr copied
    refine ⟨⟨[97, NL], s.newText⟩, e', ?_, ?_, text, by decide⟩
    · unfold list
      rw [lists]
      exact pure_bind s _
    · unfold delete
      rw [deletes]
      exact (pure_bind s' copyBack).trans copies
  · obtain ⟨e, inserts, text⟩ :=
      @copyBack_replace0 [97, NL] [120, NL] 1 0 fits (by decide) (by decide) (by decide) fun _ => 0
    exact ⟨e, inserts, text.trans (by decide), by decide⟩

end Commands

end Editor

end Riscv2os.Xv7
