import Mathlib.Data.BitVec
import Mathlib.Data.List.TakeWhile
import Mathlib.Tactic

/-!
# Text and integers in the library of the emulated programs

`strtoi` of `string.c` and `printint`, `vsprintf` and `vsscanf` of `stdio.c` in `src/vm/std`. `src/xv7/lib` has
the same `strtoi` and `vsscanf` in `sscanf.c`. A string is the list of its characters in front of the zero, and
`int` has 32 bits.
-/

namespace Riscv2os.Emulator

namespace Stdio

/-- The characters of a literal. -/
def chars (text : String) : List UInt8 := text.toList.map Char.toUInt8

/-- `digits`. -/
def digits : List UInt8 := chars "0123456789ABCDEF"

/-- `strchr`, with the index for the pointer. The loop ends before it compares the zero of the string. -/
def strchr : List UInt8 → UInt8 → Option Nat
  | [], _ => none
  | s :: rest, c => if s = c then some 0 else (strchr rest c).map (· + 1)

/-- The loop of `strtoi` with its `n`, and the rest of the text for `*end`. -/
def strtoiFrom (base : BitVec 32) : BitVec 32 → List UInt8 → BitVec 32 × List UInt8
  | n, [] => (n, [])
  | n, c :: p =>
      match strchr digits c with
      | some d => strtoiFrom base (n * base + BitVec.ofNat 32 d) p
      | none => (n, c :: p)

/-- `strtoi`. -/
def strtoi (s : List UInt8) (base : BitVec 32) : BitVec 32 × List UInt8 := strtoiFrom base 0 s

/-- The size of `buf` in `printint`. -/
def BUF_SIZE : Nat := 16

/-- `do { buf[i++] = digits[x % base]; } while ((x /= base) != 0)`, with the last character first. There is room
for so many more. -/
def putDigits (base : Nat) : Nat → Nat → List UInt8 → Option (List UInt8)
  | 0, _, _ => none
  | room + 1, x, buf =>
      let buf := digits.getD (x % base) 0 :: buf
      if x / base ≠ 0 then putDigits base room (x / base) buf else some buf

/-- `printint`, with the characters that it appends to the text. -/
def printint (xx : BitVec 32) (base : Nat) (sgn : Bool) : Option (List UInt8) := do
  let neg := sgn && xx.slt 0
  let x := if neg then -xx else xx
  let buf ← putDigits base BUF_SIZE x.toNat []
  if neg then
    if buf.length < BUF_SIZE then return '-'.toUInt8 :: buf else none
  else return buf

/-- An argument of `sprintf`. -/
inductive Arg where
  | int (v : BitVec 32)
  | long (v : BitVec 64)
  | str (s : Option (List UInt8))
deriving DecidableEq, Repr

/-- `vsprintf` in one of its two states, with the characters that it appends. An argument of another type than
the conversion has no meaning. -/
def vsprintfFrom : Bool → List UInt8 → List Arg → Option (List UInt8)
  | _, [], _ => some []
  | false, c :: fmt, vl =>
      if c = '%'.toUInt8 then vsprintfFrom true fmt vl
      else (vsprintfFrom false fmt vl).map (c :: ·)
  | true, c :: fmt, vl =>
      if c = 'd'.toUInt8 then
        match vl with
        | .int v :: vl => do return (← printint v 10 true) ++ (← vsprintfFrom false fmt vl)
        | _ => none
      else if c = 'l'.toUInt8 then
        match vl with
        | .long v :: vl => do return (← printint (v.setWidth 32) 10 false) ++ (← vsprintfFrom false fmt vl)
        | _ => none
      else if c = 'x'.toUInt8 then
        match vl with
        | .int v :: vl => do return (← printint v 16 false) ++ (← vsprintfFrom false fmt vl)
        | _ => none
      else if c = 's'.toUInt8 then
        match vl with
        | .str s :: vl => (vsprintfFrom false fmt vl).map (s.getD (chars "(null)") ++ ·)
        | _ => none
      else if c = 'c'.toUInt8 then
        match vl with
        | .int v :: vl => (vsprintfFrom false fmt vl).map (UInt8.ofNat v.toNat :: ·)
        | _ => none
      else if c = '%'.toUInt8 then (vsprintfFrom false fmt vl).map (c :: ·)
      else (vsprintfFrom false fmt vl).map ('%'.toUInt8 :: c :: ·)

/-- `sprintf`. -/
def sprintf (fmt : List UInt8) (args : List Arg) : Option (List UInt8) := vsprintfFrom false fmt args

/-- What `vsscanf` stores by one of its pointers. A string gets no zero. -/
inductive Stored where
  | str (s : List UInt8)
  | char (c : UInt8)
  | int (v : BitVec 32)
deriving DecidableEq, Repr

/-- The result of `vsscanf`, what it stored, and the text from `tp` on. -/
structure Scan where
  ret : Nat
  stored : List Stored
  rest : List UInt8
deriving DecidableEq, Repr

/-- The loop of `vsscanf`. A format that ends in `%` is left by `fp`. -/
def vsscanfFrom : List UInt8 → List UInt8 → Scan → Option Scan
  | [], tp, scan => some { scan with rest := tp }
  | _ :: _, [], scan => some { scan with rest := [] }
  | [f], t :: tp, scan =>
      if f = '%'.toUInt8 then none
      else some { scan with rest := if t ≠ f then t :: tp else tp }
  | f :: c :: fp, t :: tp, scan =>
      if f = '%'.toUInt8 then
        if c = 's'.toUInt8 then
          let s := (t :: tp).takeWhile (· ≠ ' '.toUInt8)
          vsscanfFrom fp ((t :: tp).drop s.length)
            { scan with ret := scan.ret + 1, stored := scan.stored ++ [.str s] }
        else if c = 'c'.toUInt8 then
          vsscanfFrom fp tp { scan with ret := scan.ret + 1, stored := scan.stored ++ [.char t] }
        else if c = 'd'.toUInt8 then
          let (v, endp) := strtoi (t :: tp) 10
          vsscanfFrom fp endp { scan with ret := scan.ret + 1, stored := scan.stored ++ [.int v] }
        else if c = 'x'.toUInt8 then
          let (v, endp) := strtoi (t :: tp) 16
          vsscanfFrom fp endp { scan with ret := scan.ret + 1, stored := scan.stored ++ [.int v] }
        else vsscanfFrom fp (t :: tp) scan
      else if t ≠ f then some { scan with rest := t :: tp }
      else vsscanfFrom (c :: fp) tp scan

/-- `sscanf`. -/
def sscanf (text fmt : List UInt8) : Option Scan := vsscanfFrom fmt text ⟨0, [], []⟩

section Digits

/-! ## Digits -/

/-- A digit below the base. -/
def digitBelow (b : Int) (c : UInt8) : Bool := (strchr digits c).any fun d : Nat => (d : Int) < b

/-- The digits before `cs`, which stand for `n`, and those of `cs` together. -/
def valueFrom (b : Int) (n : Int) (cs : List UInt8) : Int :=
  cs.foldl (fun n c => n * b + ((strchr digits c).getD 0 : Nat)) n

/-- The text does not go on with a digit of any base. -/
def Stops (rest : List UInt8) : Prop := ∀ c, rest.head? = some c → strchr digits c = none

variable {base : BitVec 32} {n : BitVec 32} {text rest : List UInt8}

theorem strchr_digits {d : Nat} (small : d < 16) : strchr digits (digits.getD d 0) = some d := by
  have all : ∀ d < 16, strchr digits (digits.getD d 0) = some d := by decide
  exact all d small

theorem strtoiFrom_stopped (stops : Stops rest) : strtoiFrom base n rest = (n, rest) := by
  cases rest with
  | nil => rfl
  | cons c p =>
      unfold strtoiFrom
      rw [stops c rfl]

/-- `*end` does not point to a digit. -/
theorem strtoiFrom_stops : Stops (strtoiFrom base n text).2 := by
  induction text generalizing n with
  | nil =>
      intro c head
      cases head
  | cons c p ih =>
      unfold strtoiFrom
      cases found : strchr digits c with
      | some d => exact ih
      | none =>
          intro c' head
          cases head
          exact found

/-- The digits at the front of a text are taken one by one. -/
theorem strtoiFrom_append (base : BitVec 32) (rest : List UInt8) (i : Int)
    (taken : ∀ c ∈ text, (strchr digits c).isSome) :
    strtoiFrom base (BitVec.ofInt 32 i) (text ++ rest) =
      strtoiFrom base (BitVec.ofInt 32 (valueFrom base.toInt i text)) rest := by
  induction text generalizing i with
  | nil => rfl
  | cons c p ih =>
      obtain ⟨d, found⟩ := Option.isSome_iff_exists.mp (taken c List.mem_cons_self)
      have next : BitVec.ofInt 32 i * base + BitVec.ofNat 32 d =
          BitVec.ofInt 32 (i * base.toInt + (d : Nat)) := by
        rw [BitVec.ofInt_add, BitVec.ofInt_mul, BitVec.ofInt_toInt, BitVec.ofInt_natCast]
      rw [List.cons_append, strtoiFrom, found]
      show strtoiFrom base (BitVec.ofInt 32 i * base + BitVec.ofNat 32 d) (p ++ rest) = _
      rw [next, ih _ fun c' member => taken c' (List.mem_cons_of_mem _ member)]
      simp only [valueFrom, List.foldl_cons, found, Option.getD_some]

/-- What `strtoi` is for: the longest prefix of digits below the base is read. -/
def ReadsDigits (base : BitVec 32) (text : List UInt8) : Prop :=
  strtoi text base = (BitVec.ofInt 32 (valueFrom base.toInt 0 (text.takeWhile (digitBelow base.toInt))),
    text.dropWhile (digitBelow base.toInt))

/-- `strtoi` reads the digits below the base exactly if no other digit follows them. -/
theorem readsDigits_iff : ReadsDigits base text ↔ Stops (text.dropWhile (digitBelow base.toInt)) := by
  constructor
  · intro reads
    have behind : (strtoi text base).2 = text.dropWhile (digitBelow base.toInt) := congrArg Prod.snd reads
    rw [← behind]
    exact strtoiFrom_stops
  · intro stops
    have taken : ∀ c ∈ text.takeWhile (digitBelow base.toInt), (strchr digits c).isSome := by
      intro c member
      have below : digitBelow base.toInt c = true := List.mem_takeWhile_imp member
      unfold digitBelow at below
      obtain ⟨d, found, -⟩ := (Option.any_eq_true ..).mp below
      rw [found]
      rfl
    unfold ReadsDigits strtoi
    conv_lhs => rw [← List.takeWhile_append_dropWhile (p := digitBelow base.toInt) (l := text)]
    exact (strtoiFrom_append base _ 0 taken).trans (strtoiFrom_stopped stops)

end Digits

section RoundTrip

/-! ## Printing and scanning -/

/-- What is printed for an `int` is scanned as the same `int`, and nothing behind its digits is read. -/
def RoundTrips (conversion : Char) (v : BitVec 32) : Prop :=
  ∃ text, sprintf ['%'.toUInt8, conversion.toUInt8] [.int v] = some text ∧
    ∀ rest, Stops rest →
      sscanf (text ++ rest) ['%'.toUInt8, conversion.toUInt8] = some ⟨1, [.int v], rest⟩

theorem valueFrom_digit (b n : Int) {d : Nat} (small : d < 16) :
    valueFrom b n [digits.getD d 0] = n * b + (d : Nat) := by
  unfold valueFrom
  rw [List.foldl_cons, List.foldl_nil, strchr_digits small]
  rfl

/-- The digits `cs` that `printint` puts in front of `buf` stand for the number. -/
structure Digits (base k x : Nat) (cs : List UInt8) : Prop where
  some : cs ≠ []
  count : cs.length ≤ k
  known : ∀ c ∈ cs, (strchr digits c).isSome
  value : valueFrom base 0 cs = x

theorem Digits.one {base x : Nat} (k : Nat) (small : x < 16) : Digits base (k + 1) x [digits.getD x 0] where
  some := by simp
  count := by simp
  known c member := by
    rw [List.mem_singleton.mp member, strchr_digits small]
    rfl
  value := by
    rw [valueFrom_digit _ _ small, Int.zero_mul, Int.zero_add]

/-- One more digit behind those of the quotient. -/
theorem Digits.append {base k x : Nat} {cs : List UInt8} (positive : 0 < base) (sixteen : base ≤ 16)
    (above : Digits base k (x / base) cs) : Digits base (k + 1) x (cs ++ [digits.getD (x % base) 0]) where
  some := by simp
  count := by
    rw [List.length_append, List.length_singleton]
    exact Nat.succ_le_succ above.count
  known c member := by
    rcases List.mem_append.mp member with early | last
    · exact above.known c early
    · rw [List.mem_singleton.mp last, strchr_digits ((Nat.mod_lt x positive).trans_le sixteen)]
      rfl
  value := by
    have split : valueFrom base 0 (cs ++ [digits.getD (x % base) 0]) =
        valueFrom base (valueFrom base 0 cs) [digits.getD (x % base) 0] := List.foldl_append
    rw [split, above.value, valueFrom_digit _ _ ((Nat.mod_lt x positive).trans_le sixteen)]
    exact_mod_cast Nat.div_add_mod' x base

/-- There are no more digits than the exponent of a larger power of the base. -/
theorem putDigits_digits {base : Nat} (two : 2 ≤ base) (sixteen : base ≤ 16) {k room x : Nat} (buf : List UInt8)
    (small : x < base ^ (k + 1)) (fits : k < room) :
    ∃ cs, putDigits base room x buf = some (cs ++ buf) ∧ Digits base (k + 1) x cs := by
  induction k generalizing room x buf with
  | zero =>
      obtain ⟨room, rfl⟩ := Nat.exists_eq_succ_of_ne_zero fits.ne'
      rw [Nat.pow_one] at small
      unfold putDigits
      rw [Nat.div_eq_of_lt small, Nat.mod_eq_of_lt small, if_neg (not_not.mpr rfl)]
      exact ⟨_, rfl, .one 0 (small.trans_le sixteen)⟩
  | succ k ih =>
      obtain ⟨room, rfl⟩ := Nat.exists_eq_succ_of_ne_zero (Nat.ne_zero_of_lt fits)
      unfold putDigits
      by_cases more : x / base ≠ 0
      · rw [if_pos more]
        have quotient : x / base < base ^ (k + 1) := by
          rw [Nat.div_lt_iff_lt_mul (by omega), ← Nat.pow_succ]
          exact small
        obtain ⟨cs, ran, above⟩ := ih (digits.getD (x % base) 0 :: buf) quotient (show k < room by omega)
        refine ⟨cs ++ [digits.getD (x % base) 0], ?_, above.append (by omega) sixteen⟩
        rw [ran, List.append_assoc]
        rfl
      · rw [if_neg more]
        have below : x < base := by
          by_contra large
          exact more (Nat.div_ne_zero_iff.mpr ⟨by omega, by omega⟩)
        rw [Nat.mod_eq_of_lt below]
        exact ⟨_, rfl, .one _ (below.trans_le sixteen)⟩

/-- `strtoi` of a number that `printint` wrote without a sign. -/
theorem strtoi_putDigits (base : Nat) (two : 2 ≤ base) (sixteen : base ≤ 16) {k : Nat} (v : BitVec 32)
    (small : v.toNat < base ^ (k + 1)) (fits : k < BUF_SIZE) :
    ∃ c cs, putDigits base BUF_SIZE v.toNat [] = some (c :: cs) ∧
      ∀ rest, Stops rest → strtoi (c :: cs ++ rest) (BitVec.ofNat 32 base) = (v, rest) := by
  obtain ⟨text, ran, some, -, known, value⟩ := putDigits_digits two sixteen [] small fits
  rw [List.append_nil] at ran
  obtain ⟨c, cs, rfl⟩ := List.exists_cons_of_ne_nil some
  refine ⟨c, cs, ran, fun rest stops => ?_⟩
  have base_eq : (BitVec.ofNat 32 base).toInt = base := by
    have number : (BitVec.ofNat 32 base).toNat = base := by
      rw [BitVec.toNat_ofNat]
      omega
    rw [BitVec.toInt_eq_toNat_of_lt (by omega), number]
  have read := (strtoiFrom_append (BitVec.ofNat 32 base) rest 0 known).trans (strtoiFrom_stopped stops)
  rw [base_eq, value, BitVec.ofInt_natCast, BitVec.ofNat_toNat, BitVec.setWidth_eq] at read
  exact read

/-- One conversion prints what `printint` gives. -/
theorem sprintf_decimal (v : BitVec 32) :
    sprintf ['%'.toUInt8, 'd'.toUInt8] [.int v] = printint v 10 true := by
  show (do return (← printint v 10 true) ++ (← vsprintfFrom false [] [])) = _
  cases printint v 10 true with
  | none => rfl
  | some text => exact congrArg some (List.append_nil _)

theorem sprintf_hex (v : BitVec 32) :
    sprintf ['%'.toUInt8, 'x'.toUInt8] [.int v] = printint v 16 false := by
  show (do return (← printint v 16 false) ++ (← vsprintfFrom false [] [])) = _
  cases printint v 16 false with
  | none => rfl
  | some text => exact congrArg some (List.append_nil _)

/-- One conversion scans what `strtoi` reads. -/
theorem sscanf_decimal (c : UInt8) (text : List UInt8) : sscanf (c :: text) ['%'.toUInt8, 'd'.toUInt8] =
    some ⟨1, [.int (strtoi (c :: text) 10).1], (strtoi (c :: text) 10).2⟩ := rfl

theorem sscanf_hex (c : UInt8) (text : List UInt8) : sscanf (c :: text) ['%'.toUInt8, 'x'.toUInt8] =
    some ⟨1, [.int (strtoi (c :: text) 16).1], (strtoi (c :: text) 16).2⟩ := rfl

/-- `%x` of any number. -/
theorem roundTrips_hex (v : BitVec 32) : RoundTrips 'x' v := by
  obtain ⟨c, cs, put, scan⟩ := strtoi_putDigits 16 (by decide) le_rfl (k := 7) v
    (v.isLt.trans_le (by decide)) (by decide)
  refine ⟨c :: cs, ?_, fun rest stops => ?_⟩
  · rw [sprintf_hex]
    exact congrArg (· >>= _) put
  · have read : strtoi (c :: (cs ++ rest)) 16 = (v, rest) := scan rest stops
    rw [List.cons_append, sscanf_hex, read]

/-- `%d` of a number that is not negative. -/
theorem roundTrips_decimal {v : BitVec 32} (positive : 0 ≤ v.toInt) : RoundTrips 'd' v := by
  have unsigned : v.slt 0 = false := by
    rw [BitVec.slt, decide_eq_false_iff_not]
    exact not_lt.mpr positive
  obtain ⟨c, cs, put, scan⟩ := strtoi_putDigits 10 (by decide) (by decide) (k := 9) v
    (v.isLt.trans_le (by decide)) (by decide)
  refine ⟨c :: cs, ?_, fun rest stops => ?_⟩
  · rw [sprintf_decimal, printint, unsigned]
    exact congrArg (· >>= _) put
  · have read : strtoi (c :: (cs ++ rest)) 10 = (v, rest) := scan rest stops
    rw [List.cons_append, sscanf_decimal, read]

/-- `%d` writes a sign that it does not read. -/
theorem not_roundTrips_negative {v : BitVec 32} (negative : v.toInt < 0) : ¬ RoundTrips 'd' v := by
  rintro ⟨text, printed, scans⟩
  have sign : v.slt 0 = true := decide_eq_true negative
  rw [sprintf_decimal, printint, sign] at printed
  obtain ⟨buf, -, rest⟩ := Option.bind_eq_some_iff.mp printed
  have both : (true && true) = true := rfl
  have minus : text = '-'.toUInt8 :: buf := by
    by_cases room : buf.length < BUF_SIZE
    · rw [if_pos both, if_pos room] at rest
      exact (Option.some.inj rest).symm
    · rw [if_pos both, if_neg room] at rest
      cases rest
  have scanned := scans [] fun c head => by cases head
  have read : strtoi ('-'.toUInt8 :: buf) 10 = (0, '-'.toUInt8 :: buf) := rfl
  rw [minus, List.append_nil, sscanf_decimal, read] at scanned
  -- the whole text is left
  cases scanned

end RoundTrip

/-- What `%d` prints is read back exactly for the numbers that are not negative, what `%x` prints always, and
`strtoi` reads the digits below its base exactly where no other digit follows them. -/
theorem text_conversions (v base : BitVec 32) (text : List UInt8) :
    (RoundTrips 'd' v ↔ 0 ≤ v.toInt) ∧ RoundTrips 'x' v ∧
      (ReadsDigits base text ↔ Stops (text.dropWhile (digitBelow base.toInt))) := by
  refine ⟨⟨fun trips => ?_, roundTrips_decimal⟩, roundTrips_hex v, readsDigits_iff⟩
  by_contra negative
  exact not_roundTrips_negative (not_le.mp negative) trips

/-- -1 is not read back, and `strtoi` reads `1A` to the base 10 as 20. -/
theorem text_conversions_fail : ¬ RoundTrips 'd' (-1) ∧ strtoi (chars "1A") 10 = (20, []) ∧
    ¬ ReadsDigits 10 (chars "1A") := by
  refine ⟨not_roundTrips_negative (by decide), by decide, fun reads => ?_⟩
  exact absurd (readsDigits_iff.mp reads) fun stops => absurd (stops _ rfl) (by decide)

end Stdio

end Riscv2os.Emulator
