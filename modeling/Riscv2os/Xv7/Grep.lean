import Riscv2os.Std.Bytes
import Riscv2os.Std.TextPattern
import Riscv2os.Std.Loops

/-!
# grep

`match`, `matchhere` and `matchstar` decide a language: that of the pattern a regular expression spells out.
`grep` reads its input into a buffer of 1024 bytes, in whatever pieces `read` returns it, prints the lines that match
and moves what is left of an unfinished line to the front. `grep_prints` says which lines it prints: those that match,
up to the first line that does not fit in the buffer or has a null byte in it. All lines behind that one are lost, and
so is a last line without its newline.
-/

namespace Riscv2os.Xv7.Grep

open Riscv2os.Std

def NL : UInt8 := 10

/-- `'.'`, `'*'`, `'^'` and `'$'`. -/
def DOT : UInt8 := 46
def STAR : UInt8 := 42
def CARET : UInt8 := 94
def DOLLAR : UInt8 := 36

/-! ## The matcher

A string is the list of the bytes before its null byte. -/

/-- `matchstar(c, re, text)`, where `here` is `matchhere` for `re`. -/
def matchstar (here : List UInt8 → Bool) (c : UInt8) : List UInt8 → Bool
  | [] => here []
  | x :: text => here (x :: text) || ((x == c || c == DOT) && matchstar here c text)

/-- `re[0]=='.' || re[0]==*text` -/
def accepts (c x : UInt8) : Bool := c == DOT || c == x

def matchhere : List UInt8 → List UInt8 → Bool
  | [], _ => true
  | [c], text =>
      if c = DOLLAR then text.isEmpty
      else match text with
        | [] => false
        | x :: text => accepts c x && matchhere [] text
  | c :: d :: re, text =>
      if d = STAR then matchstar (fun text => matchhere re text) c text
      else match text with
        | [] => false
        | x :: text => accepts c x && matchhere (d :: re) text

/-- The loop of `match`, over the suffixes of the text. -/
def matchFrom (re : List UInt8) : List UInt8 → Bool
  | [] => matchhere re []
  | x :: text => matchhere re (x :: text) || matchFrom re text

def match_ : List UInt8 → List UInt8 → Bool
  | [], text => matchFrom [] text
  | c :: re, text => if c = CARET then matchhere re text else matchFrom (c :: re) text

/-- What a regular expression without its `'^'` spells out. -/
def spelled : List UInt8 → TextPattern UInt8
  | [] => .anything
  | [c] => if c = DOLLAR then .nothing else .letter (accepts c) .anything
  | c :: d :: re => if d = STAR then .run (accepts c) (spelled re) else .letter (accepts c) (spelled (d :: re))

/-- The texts that a regular expression stands for: a `'^'` at its start ties it to the start of the text. -/
def language : List UInt8 → Language UInt8
  | [] => ⊤
  | c :: re => if c = CARET then (spelled re).language else ⊤ * (spelled (c :: re)).language

theorem matchstar_iff {here : List UInt8 → Bool} {l : Language UInt8} (tried : ∀ text, here text = true ↔ text ∈ l)
    (c : UInt8) (text : List UInt8) :
    matchstar here c text = true ↔ text ∈ KStar.kstar (TextPattern.letters (accepts c)) * l := by
  induction text with
  | nil => rw [matchstar, tried, TextPattern.nil_mem_run_mul]
  | cons x text ih =>
      have same : (x == c || c == DOT) = accepts c x := by
        rw [accepts, Bool.or_comm, BEq.comm (a := x)]
      rw [matchstar, Bool.or_eq_true, Bool.and_eq_true, tried, ih, same, TextPattern.cons_mem_run_mul]

theorem matchhere_iff (re text : List UInt8) : matchhere re text = true ↔ text ∈ (spelled re).language := by
  induction re, text using matchhere.induct with
  | case1 text => exact iff_of_true rfl TextPattern.mem_anything
  | case2 text => simp [matchhere, spelled]
  | case3 c other => simp [matchhere, spelled, other, TextPattern.language]
  | case4 c other x text ih =>
      rw [matchhere, if_neg other, spelled, if_neg other, TextPattern.language, TextPattern.cons_mem_letters_mul,
        Bool.and_eq_true, ih]
      rfl
  | case5 c re text ih =>
      rw [matchhere.eq_def]
      simp only [if_true, spelled]
      exact matchstar_iff ih c text
  | case6 c d re other => simp [matchhere, spelled, other, TextPattern.language]
  | case7 c d re other x text ih =>
      rw [matchhere, if_neg other, spelled, if_neg other, TextPattern.language, TextPattern.cons_mem_letters_mul,
        Bool.and_eq_true, ih]

theorem matchFrom_iff (re text : List UInt8) : matchFrom re text = true ↔ text ∈ ⊤ * (spelled re).language := by
  induction text with
  | nil => rw [matchFrom, matchhere_iff, TextPattern.nil_mem_anywhere]
  | cons x text ih => rw [matchFrom, Bool.or_eq_true, matchhere_iff, ih, TextPattern.cons_mem_anywhere]

/-- `match` decides the language of its regular expression. -/
theorem match_iff (re text : List UInt8) : match_ re text = true ↔ text ∈ language re := by
  cases re with
  | nil =>
      rw [match_, matchFrom_iff]
      exact iff_of_true (Language.mem_mul.mpr ⟨[], trivial, text, trivial, rfl⟩) trivial
  | cons c re =>
      rw [match_, language]
      split
      · exact matchhere_iff re text
      · exact matchFrom_iff (c :: re) text

instance (re text : List UInt8) : Decidable (text ∈ language re) := decidable_of_iff _ (match_iff re text)

/-! ## The loop over the input -/

/-- The size of `buf`. -/
def BUF_SIZE : Nat := 1024

abbrev Buf := Bytes BUF_SIZE

inductive Fault
  /-- An access outside `buf`. -/
  | outside
  /-- A loop that does not end. -/
  | endless

/-- Store bytes in `buf`. -/
def store (buf : Buf) (p : Nat) (bytes : List UInt8) : Except Fault Buf :=
  if p + bytes.length ≤ BUF_SIZE then .ok (buf.splice p bytes) else .error .outside

/-- The string at an address in `buf`, with the number of the bytes that are left up to the end of `buf`. -/
def stringFrom (buf : Buf) : Nat → Nat → Except Fault (List UInt8)
  | 0, _ => .error .outside
  | left + 1, p =>
      if buf.byte p = 0 then .ok []
      else do
        let rest ← stringFrom buf left (p + 1)
        .ok (buf.byte p :: rest)

def strchrFrom (buf : Buf) (c : UInt8) : Nat → Nat → Except Fault (Option Nat)
  | 0, _ => .error .outside
  | left + 1, p =>
      if buf.byte p = 0 then .ok none
      else if buf.byte p = c then .ok (some p)
      else strchrFrom buf c left (p + 1)

/-- The inner loop of `grep`: the lines from `p` on. -/
def printLines (pattern : List UInt8) : Nat → Buf → Nat → List UInt8 → Except Fault (Buf × Nat × List UInt8)
  | 0, _, _, _ => .error .endless
  | fuel + 1, buf, p, out => do
      match ← strchrFrom buf NL (BUF_SIZE - p) p with
      | none => .ok (buf, p, out)
      | some q => do
          let buf ← store buf q [0]
          let line ← stringFrom buf (BUF_SIZE - p) p
          if match_ pattern line then do
            let buf ← store buf q [NL]
            printLines pattern fuel buf (q + 1) (out ++ buf.slice p (q + 1 - p))
          else printLines pattern fuel buf (q + 1) out

/-- The outer loop of `grep`. The `k`-th `read` returns `sizes k + 1` bytes where it can, and 0 at the end of the
input. -/
def grepFrom (pattern : List UInt8) (sizes : Nat → Nat) :
    Nat → Nat → Buf → Nat → List UInt8 → List UInt8 → Except Fault (List UInt8)
  | 0, _, _, _, _, _ => .error .endless
  | fuel + 1, k, buf, m, input, out => do
      let got := input.take (min (BUF_SIZE - m - 1) (sizes k + 1))
      if got = [] then .ok out
      else do
        let buf ← store buf m got
        let m := m + got.length
        let buf ← store buf m [0]
        let (buf, p, out) ← printLines pattern BUF_SIZE buf 0 out
        if m > 0 then do
          let buf ← store buf 0 (buf.slice p (m - p))
          grepFrom pattern sizes fuel (k + 1) buf (m - p) (input.drop got.length) out
        else grepFrom pattern sizes fuel (k + 1) buf m (input.drop got.length) out

/-- `grep` on an input, with whatever an earlier file has left in `buf`: what it writes. -/
def grep (pattern : List UInt8) (sizes : Nat → Nat) (buf : Buf) (input : List UInt8) : Except Fault (List UInt8) :=
  grepFrom pattern sizes (input.length + 1) 0 buf 0 input []

/-! ## The lines that are printed -/

/-- The lines of an input that end in a newline. -/
def completeLines (input : List UInt8) : List (List UInt8) := (input.splitOn NL).dropLast

/-- A line that `buf` has room for, and that is a string. -/
def fits (line : List UInt8) : Bool := line.length + 1 < BUF_SIZE && !line.contains 0

/-- The lines that `grep` looks at. -/
def readable (input : List UInt8) : List (List UInt8) := (completeLines input).takeWhile fits

/-- The lines that `grep` prints. -/
def printed (pattern input : List UInt8) : List UInt8 :=
  ((readable input).filter (match_ pattern)).flatMap (· ++ [NL])

theorem completeLines_none {input : List UInt8} (none : NL ∉ input) : completeLines input = [] := by
  unfold completeLines
  rw [List.splitOn_eq_singleton none]
  rfl

theorem completeLines_line {line : List UInt8} (none : NL ∉ line) (rest : List UInt8) :
    completeLines (line ++ NL :: rest) = line :: completeLines rest := by
  unfold completeLines
  rw [List.splitOn_append_cons_self_of_not_mem none]
  exact List.dropLast_cons_of_ne_nil (List.splitOn_ne_nil _ _)

theorem fits_iff {line : List UInt8} : fits line = true ↔ line.length + 1 < BUF_SIZE ∧ 0 ∉ line := by
  simp [fits]

/-- The first line of a string, as `strchr` finds it: not behind a null byte. -/
def cut : List UInt8 → Option (List UInt8 × List UInt8)
  | [] => none
  | x :: text =>
      if x = 0 then none
      else if x = NL then some ([], text)
      else (cut text).map fun found => (x :: found.1, found.2)

theorem cut_some {text line rest : List UInt8} (found : cut text = some (line, rest)) :
    text = line ++ NL :: rest ∧ NL ∉ line ∧ 0 ∉ line := by
  induction text generalizing line with
  | nil => cases found
  | cons x text ih =>
      rw [cut] at found
      split at found
      · cases found
      split at found
      · next newline =>
          cases found
          rw [newline]
          exact ⟨rfl, List.not_mem_nil, List.not_mem_nil⟩
      · next real other =>
          obtain ⟨⟨line', rest'⟩, first, same⟩ := Option.map_eq_some_iff.mp found
          cases same
          obtain ⟨rfl, noNewline, noNull⟩ := ih first
          exact ⟨rfl, List.not_mem_cons_of_ne_of_not_mem (Ne.symm other) noNewline,
            List.not_mem_cons_of_ne_of_not_mem (Ne.symm real) noNull⟩

theorem cut_none {text : List UInt8} (none : cut text = none) :
    NL ∉ text ∨ ∃ before rest, text = before ++ 0 :: rest ∧ NL ∉ before := by
  induction text with
  | nil => exact .inl List.not_mem_nil
  | cons x text ih =>
      rw [cut] at none
      split at none
      · next null =>
          rw [null]
          exact .inr ⟨[], text, rfl, List.not_mem_nil⟩
      split at none
      · cases none
      · next other =>
          rcases ih (Option.map_eq_none_iff.mp none) with without | ⟨before, rest, rfl, without⟩
          · exact .inl (List.not_mem_cons_of_ne_of_not_mem (Ne.symm other) without)
          · exact .inr ⟨x :: before, rest, rfl, List.not_mem_cons_of_ne_of_not_mem (Ne.symm other) without⟩

theorem readable_line {line : List UInt8} (none : NL ∉ line) (short : fits line = true) (rest : List UInt8) :
    readable (line ++ NL :: rest) = line :: readable rest := by
  unfold readable
  rw [completeLines_line none, List.takeWhile_cons_of_pos short]

/-- What stands before the first newline is part of the first line. -/
theorem prefix_line {before after line rest : List UInt8} (none : NL ∉ before)
    (same : before ++ after = line ++ NL :: rest) : before <+: line := by
  rcases List.append_eq_append_iff.mp same with ⟨more, rfl, -⟩ | ⟨more, rfl, split⟩
  · exact List.prefix_append before more
  · cases more with
    | nil => rw [List.append_nil]
    | cons x more =>
        cases split
        exact absurd (List.mem_append_right line List.mem_cons_self) none

/-- Nothing is looked at behind a string without a line, once the input is at its end or `buf` is full. -/
theorem readable_stuck {data rest : List UInt8} (none : cut data = none)
    (full : rest = [] ∨ BUF_SIZE ≤ data.length + 1) : readable (data ++ rest) = [] := by
  unfold readable
  by_cases line : NL ∈ data ++ rest
  · obtain ⟨first, more, same, newline⟩ := List.eq_append_cons_of_mem line
    rw [same, completeLines_line newline, List.takeWhile_cons_of_neg]
    rw [fits_iff]
    rintro ⟨short, string⟩
    rcases cut_none none with without | ⟨before, behind, rfl, without⟩
    · have inside := (prefix_line without same).length_le
      rcases full with rfl | full
      · rw [List.append_nil] at line
        exact without line
      · omega
    · have null : (0 : UInt8) ≠ NL := by decide
      have without' : NL ∉ before ++ [0] := by
        rw [List.mem_append, List.mem_singleton]
        exact not_or.mpr ⟨without, Ne.symm null⟩
      have split : (before ++ [0]) ++ (behind ++ rest) = first ++ NL :: more := by
        rw [← same]
        simp
      have inside := prefix_line without' split
      exact string (inside.subset (List.mem_append_right before List.mem_cons_self))
  · rw [completeLines_none line]
    rfl

theorem printed_line (pattern : List UInt8) {line : List UInt8} (none : NL ∉ line) (short : fits line = true)
    (rest : List UInt8) : printed pattern (line ++ NL :: rest) =
      (if match_ pattern line then line ++ [NL] else []) ++ printed pattern rest := by
  unfold printed
  rw [readable_line none short, List.filter_cons]
  split
  · rw [List.flatMap_cons]
  · rw [List.nil_append]

theorem printed_stuck (pattern : List UInt8) {data rest : List UInt8} (none : cut data = none)
    (full : rest = [] ∨ BUF_SIZE ≤ data.length + 1) : printed pattern (data ++ rest) = [] := by
  unfold printed
  rw [readable_stuck none full]
  rfl

/-! ## The buffer -/

/-- `buf` has a text at `p`, and a null byte behind it. -/
structure Holds (buf : Buf) (p : Nat) (text : List UInt8) : Prop where
  stored : buf.slice p text.length = text
  null : buf.byte (p + text.length) = 0
  inside : p + text.length < BUF_SIZE

variable {buf : Buf} {p : Nat}

theorem Holds.tail {x : UInt8} {text : List UInt8} (holds : Holds buf p (x :: text)) :
    buf.byte p = x ∧ Holds buf (p + 1) text := by
  have split := Bytes.slice_add buf p 1 text.length
  have whole := holds.stored
  rw [List.length_cons, Nat.add_comm, split] at whole
  obtain ⟨first, rest⟩ := List.cons.inj whole
  have shift : p + (text.length + 1) = p + 1 + text.length := by omega
  have null := holds.null
  have inside := holds.inside
  rw [List.length_cons, shift] at null inside
  exact ⟨first, rest, null, inside⟩

theorem Holds.last (holds : Holds buf p []) : buf.byte p = 0 ∧ ∃ left, BUF_SIZE - p = left + 1 := by
  have inside := holds.inside
  rw [List.length_nil, Nat.add_zero] at inside
  obtain ⟨left, whole⟩ := Nat.exists_eq_add_of_lt inside
  exact ⟨holds.null, left, by omega⟩

theorem strchrFrom_eq {text : List UInt8} (holds : Holds buf p text) :
    strchrFrom buf NL (BUF_SIZE - p) p = .ok ((cut text).map fun found => p + found.1.length) := by
  induction text generalizing p with
  | nil =>
      obtain ⟨null, left, count⟩ := holds.last
      rw [count, strchrFrom, if_pos null]
      rfl
  | cons x text ih =>
      obtain ⟨first, rest⟩ := holds.tail
      have inside := rest.inside
      have count : BUF_SIZE - p = BUF_SIZE - (p + 1) + 1 := by omega
      rw [count, strchrFrom, cut, first]
      split
      · rfl
      split
      · rfl
      · rw [ih rest, Option.map_map]
        congr 2
        funext found
        simp only [Function.comp_apply, List.length_cons]
        omega

theorem stringFrom_eq {text : List UInt8} (holds : Holds buf p text) (string : 0 ∉ text) :
    stringFrom buf (BUF_SIZE - p) p = .ok text := by
  induction text generalizing p with
  | nil =>
      obtain ⟨null, left, count⟩ := holds.last
      rw [count, stringFrom, if_pos null]
  | cons x text ih =>
      obtain ⟨first, rest⟩ := holds.tail
      have inside := rest.inside
      have count : BUF_SIZE - p = BUF_SIZE - (p + 1) + 1 := by omega
      rw [List.mem_cons, not_or] at string
      rw [count, stringFrom, first, if_neg (Ne.symm string.1), ih rest string.2]
      rfl

theorem Holds.line {line rest : List UInt8} (holds : Holds buf p (line ++ NL :: rest)) :
    buf.slice p (line.length + 1) = line ++ [NL] ∧ Holds buf (p + line.length + 1) rest := by
  have count : (line ++ NL :: rest).length = line.length + 1 + rest.length := by
    rw [List.length_append, List.length_cons]
    omega
  have whole := holds.stored
  have null := holds.null
  have inside := holds.inside
  have shift : p + (line.length + 1 + rest.length) = p + line.length + 1 + rest.length := by omega
  rw [count] at whole null inside
  rw [shift] at null inside
  have split : line ++ NL :: rest = (line ++ [NL]) ++ rest := by simp
  rw [Bytes.slice_add, split] at whole
  obtain ⟨first, second⟩ := List.append_inj whole (by simp)
  exact ⟨first, second, null, inside⟩

theorem Holds.store_before {q : Nat} {text : List UInt8} {x : UInt8} (holds : Holds buf p text) (before : q < p) :
    Holds (buf.splice q [x]) p text := by
  have inside := holds.inside
  refine ⟨?_, ?_, inside⟩
  · rw [Bytes.slice_splice_apart _ (.inr (by rw [List.length_singleton]; omega))]
    exact holds.stored
  · rw [Bytes.byte_splice _ _ _ _ inside, if_neg (by rw [List.length_singleton]; omega)]
    exact holds.null

/-- The inner loop prints what is to be printed and stops where there is no line any more. -/
theorem printLines_spec (pattern : List UInt8) {fuel : Nat} {text : List UInt8} (out : List UInt8)
    (enough : text.length < fuel) (holds : Holds buf p text) :
    ∃ buf' p' left shown, printLines pattern fuel buf p out = .ok (buf', p', out ++ shown) ∧ Holds buf' p' left ∧
      p' + left.length = p + text.length ∧ cut left = none ∧
      ∀ rest, printed pattern (text ++ rest) = shown ++ printed pattern (left ++ rest) := by
  induction fuel generalizing buf p text out with
  | zero => exact absurd enough (Nat.not_lt_zero _)
  | succ fuel ih =>
      rw [printLines, strchrFrom_eq holds]
      cases found : cut text with
      | none => exact ⟨buf, p, text, [], by rw [List.append_nil]; rfl, holds, rfl, found, fun _ => rfl⟩
      | some pieces =>
          obtain ⟨line, rest⟩ := pieces
          obtain ⟨rfl, newline, string⟩ := cut_some found
          obtain ⟨whole, behind⟩ := holds.line
          have inside := holds.inside
          have length : (line ++ NL :: rest).length = line.length + 1 + rest.length := by
            rw [List.length_append, List.length_cons]
            omega
          rw [length] at inside enough
          have short : fits line = true := fits_iff.mpr ⟨by omega, string⟩
          have room {b : Buf} (x : UInt8) : store b (p + line.length) [x] = .ok (b.splice (p + line.length) [x]) :=
            if_pos (by rw [List.length_singleton]; omega)
          have cutHere : Holds (buf.splice (p + line.length) [0]) p line := by
            refine ⟨?_, ?_, by omega⟩
            · rw [Bytes.slice_splice_apart _ (.inl le_rfl)]
              rw [Bytes.slice_add] at whole
              exact (List.append_inj whole (by simp)).1
            · rw [Bytes.byte_splice _ _ _ _ (by omega), if_pos ⟨le_rfl, by simp⟩, Nat.sub_self]
              rfl
          have behind' := behind.store_before (x := 0) (Nat.lt_succ_self (p + line.length))
          simp only [Option.map_some, ok_bind, room, stringFrom_eq cutHere string]
          cases matched : match_ pattern line with
          | false =>
              obtain ⟨buf', p', left, shown, ran, holds', ends, none, more⟩ := ih out (by omega) behind'
              rw [if_neg Bool.false_ne_true]
              refine ⟨buf', p', left, shown, ran, holds', by omega, none, fun after => ?_⟩
              rw [List.append_assoc, List.cons_append, printed_line pattern newline short, matched,
                if_neg Bool.false_ne_true, List.nil_append, more]
          | true =>
              have restored : ((buf.splice (p + line.length) [0]).splice (p + line.length) [NL]).slice p
                  (p + line.length + 1 - p) = line ++ [NL] := by
                have count : p + line.length + 1 - p = line.length + 1 := by omega
                rw [count, Bytes.slice_add, Bytes.slice_splice_apart _ (.inl le_rfl), cutHere.stored]
                have last := (buf.splice (p + line.length) [0]).slice_splice_self
                  (by rw [List.length_singleton]; omega : p + line.length + [NL].length ≤ BUF_SIZE)
                rw [List.length_singleton] at last
                rw [last]
              obtain ⟨buf', p', left, shown, ran, holds', ends, none, more⟩ :=
                ih (out ++ (line ++ [NL])) (by omega) (behind'.store_before (x := NL) (Nat.lt_succ_self _))
              rw [if_pos rfl, restored]
              refine ⟨buf', p', left, line ++ [NL] ++ shown, ?_, holds', by omega, none, fun after => ?_⟩
              · rw [ran, List.append_assoc out]
              · rw [List.append_assoc, List.cons_append, printed_line pattern newline short, matched, if_pos rfl, more,
                  List.append_assoc (line ++ [NL])]

theorem grepFrom_eq (pattern : List UInt8) (sizes : Nat → Nat) {fuel k : Nat} {data input : List UInt8}
    (out : List UInt8) (enough : input.length < fuel) (stored : buf.slice 0 data.length = data)
    (small : data.length < BUF_SIZE) (none : cut data = none) :
    grepFrom pattern sizes fuel k buf data.length input out = .ok (out ++ printed pattern (data ++ input)) := by
  induction fuel generalizing k buf data input out with
  | zero => exact absurd enough (Nat.not_lt_zero _)
  | succ fuel ih =>
      rw [grepFrom]
      simp only
      generalize got_eq : input.take (min (BUF_SIZE - data.length - 1) (sizes k + 1)) = got
      have split : got ++ input.drop got.length = input := by
        have prefixed : got <+: input := got_eq ▸ List.take_prefix _ _
        obtain ⟨rest, rfl⟩ := prefixed
        rw [List.drop_left]
      have length : got.length ≤ BUF_SIZE - data.length - 1 := by
        rw [← got_eq, List.length_take]
        omega
      by_cases empty : got = []
      · -- `read` returns nothing at the end of the input, and when `buf` is full.
        rw [if_pos empty, printed_stuck pattern none, List.append_nil]
        have taken := congrArg List.length (got_eq.trans empty)
        rw [List.length_take, List.length_nil] at taken
        by_cases more : input = []
        · exact .inl more
        · have positive := List.length_pos_iff.mpr more
          exact .inr (by omega)
      · have positive := List.length_pos_iff.mpr empty
        have count : data.length + got.length = (data ++ got).length := List.length_append.symm
        have fitsIn : (data ++ got).length < BUF_SIZE := by omega
        have holds : Holds ((buf.splice data.length got).splice (data ++ got).length [0]) 0 (data ++ got) := by
          refine ⟨?_, ?_, by omega⟩
          · rw [Bytes.slice_splice_apart _ (.inl (by omega)), ← count, Bytes.slice_add,
              Bytes.slice_splice_apart _ (.inl (by omega)), stored, Nat.zero_add, Bytes.slice_splice_self _ (by omega)]
          · rw [Nat.zero_add, Bytes.byte_splice _ _ _ _ fitsIn, if_pos ⟨le_rfl, by simp⟩, Nat.sub_self]
            rfl
        obtain ⟨buf', p', left, shown, ran, holds', ends, none', more⟩ := printLines_spec pattern out fitsIn holds
        have first : store buf data.length got = .ok (buf.splice data.length got) := if_pos (by omega)
        have second {b : Buf} : store b (data ++ got).length [0] = .ok (b.splice (data ++ got).length [0]) :=
          if_pos (by rw [List.length_singleton]; omega)
        have remains : (data ++ got).length - p' = left.length := by omega
        have third : store buf' 0 left = .ok (buf'.splice 0 left) := if_pos (by omega)
        rw [if_neg empty, first, ok_bind, count, second, ok_bind, ran, ok_bind]
        simp only
        rw [if_pos (by omega), remains, holds'.stored, third, ok_bind]
        have shorter : (input.drop got.length).length < fuel := by
          rw [List.length_drop]
          have all := congrArg List.length split
          rw [List.length_append, List.length_drop] at all
          omega
        rw [ih (out ++ shown) shorter (Bytes.slice_splice_self _ (by omega)) (by omega) none', List.append_assoc,
          ← more,
          List.append_assoc, split]

/-- Whatever `buf` has in it and however `read` divides the input, `grep` stays inside `buf`, ends, and prints the lines
in the language of its pattern, up to the first line that does not fit in `buf` or has a null byte in it. -/
theorem grep_prints (pattern : List UInt8) (sizes : Nat → Nat) (buf : Buf) (input : List UInt8) :
    grep pattern sizes buf input =
      .ok (((readable input).filter (· ∈ language pattern)).flatMap (· ++ [NL])) := by
  have same : (readable input).filter (match_ pattern) = (readable input).filter (· ∈ language pattern) := by
    refine List.filter_congr fun line _ => ?_
    rw [Bool.eq_iff_iff, match_iff, decide_eq_true_iff]
  rw [← same]
  have started : buf.slice 0 ([] : List UInt8).length = [] := rfl
  exact grepFrom_eq pattern sizes [] (Nat.lt_succ_self _) started (by decide) rfl

end Riscv2os.Xv7.Grep
