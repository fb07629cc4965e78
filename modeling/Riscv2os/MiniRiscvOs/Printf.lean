import Riscv2os.Std.BoundedBuffer

/-!
# Formatted output of mini-riscv-os

`lib_vsnprintf` of `lib.c` in `10-SystemCall`, for a machine where `int`, `long` and `size_t` have 32
bits. It runs over the format with the state in `Printer`. What a format and its arguments stand for is
the `Rendering`; a run that takes no argument for a `%c` keeps step with it.
-/

namespace Riscv2os.MiniRiscvOs

open Riscv2os.Std

/-- The bytes of a C string, which end in front of its zero. -/
structure CString where
  bytes : List UInt8
  nonzero : (0 : UInt8) ∉ bytes

/-- The string of a literal. -/
def CString.ofChars (chars : List Char) (nonzero : ∀ c ∈ chars, c.toUInt8 ≠ 0) : CString :=
  ⟨chars.map Char.toUInt8, by
    rw [List.mem_map]
    rintro ⟨c, member, zero⟩
    exact nonzero c member zero⟩

/-- Looked up character by character, not for all characters that there are. -/
theorem CString.nonzero_of_all {chars : List Char} (all : chars.all fun c => c.toUInt8 ≠ 0) :
    ∀ c ∈ chars, c.toUInt8 ≠ 0 := fun c member => of_decide_eq_true (List.all_eq_true.mp all c member)

/-- `sizeof(int)` and `sizeof(long)`. -/
def SIZEOF_INT : Nat := 4

def SIZEOF_LONG : Nat := 4

/-- The variables of a run: `format`, `longarg`, `pos` and `out`, and the arguments that it took, each with
its conversion. -/
structure Printer where
  format : Bool
  longarg : Bool
  pos : Nat
  taken : List (UInt8 × BitVec 32)
  out : Nat → UInt8

/-- The arguments in their order, the strings that they can point to, whether there is a buffer, and its
size. -/
structure PrintCall where
  args : Nat → BitVec 32
  str : BitVec 32 → CString
  out : Bool
  n : Nat

namespace PrintCall

variable (call : PrintCall)

/-- `if (out && pos < n) out[pos] = c`. -/
def store (buf : Nat → UInt8) (pos : Nat) (c : UInt8) : Nat → UInt8 :=
  if call.out && pos < call.n then Function.update buf pos c else buf

/-- Store a character, and `pos++`. -/
def emit (p : Printer) (c : UInt8) : Printer :=
  { p with out := call.store p.out p.pos c, pos := (p.pos + 1) % 2 ^ 32 }

/-- The argument that `va_arg` returns. -/
def vaArg (p : Printer) : BitVec 32 := call.args p.taken.length

/-- The run after `va_arg`. -/
def took (p : Printer) (conversion : Char) : Printer :=
  { p with taken := p.taken ++ [(conversion.toUInt8, call.vaArg p)] }

/-- The end of a conversion. -/
def done (p : Printer) : Printer := { p with longarg := false, format := false }

/-- `(num >> (4 * i)) & 0xF` as a character. -/
def hexDigit (num : BitVec 32) (i : Nat) : UInt8 :=
  let d := (num.sshiftRight (4 * i) &&& 0xF).toNat
  if d < 10 then UInt8.ofNat (48 + d) else UInt8.ofNat (97 + d - 10)

/-- `%x`. -/
def convertHex (p : Printer) : Printer :=
  let hexdigits := 2 * (if p.longarg then SIZEOF_LONG else SIZEOF_INT) - 1
  let digits := (List.range (hexdigits + 1)).reverse
  done (digits.foldl (fun q i => call.emit q (hexDigit (call.vaArg p) i)) (call.took p 'x'))

/-- The number of digits of `nn` that the division by ten counts. -/
def digitCount (nn : Int) : Nat :=
  if nn.tdiv 10 = 0 then 1 else digitCount (nn.tdiv 10) + 1
termination_by nn.natAbs
decreasing_by
  rw [Int.natAbs_tdiv]
  have nonzero : nn ≠ 0 := by
    rintro rfl
    contradiction
  exact Nat.div_lt_self (by omega) (by decide)

/-- `'0' + (num % 10)`. -/
def decimalDigit (num : Int) : UInt8 := UInt8.ofInt (48 + num.tmod 10)

/-- Store the last `count` digits of a number, the last one first. -/
def storeDigits (pos : Nat) : Nat → Int → (Nat → UInt8) → Nat → UInt8
  | 0, _, buf => buf
  | i + 1, num, buf =>
      storeDigits pos i (num.tdiv 10) (call.store buf ((pos + i) % 2 ^ 32) (decimalDigit num))

/-- `%d`. The negation of the minimum is the minimum. -/
def convertDecimal (p : Printer) : Printer :=
  let num := (call.vaArg p).toInt
  let sign := if num < 0 then call.emit (call.took p 'd') '-'.toUInt8 else call.took p 'd'
  let magnitude := if num < 0 then (-num).bmod (2 ^ 32) else num
  let digits := digitCount magnitude
  done { sign with
    out := call.storeDigits sign.pos digits magnitude sign.out
    pos := (sign.pos + digits) % 2 ^ 32 }

/-- `%s`. -/
def convertString (p : Printer) : Printer :=
  done ((call.str (call.vaArg p)).bytes.foldl call.emit (call.took p 's'))

/-- `%c`. The argument is taken inside the check of the bound. -/
def convertChar (p : Printer) : Printer :=
  let q := if call.out && p.pos < call.n then
    { call.took p 'c' with out := Function.update p.out p.pos ((call.vaArg p).setWidth 8).toNat.toUInt8 } else p
  done { q with pos := (q.pos + 1) % 2 ^ 32 }

/-- The `switch` over a character behind a percent sign. -/
def convert (p : Printer) (c : UInt8) : Printer :=
  if c = 'l'.toUInt8 then { p with longarg := true }
  else if c = 'p'.toUInt8 then
    call.convertHex (call.emit (call.emit { p with longarg := true } '0'.toUInt8) 'x'.toUInt8)
  else if c = 'x'.toUInt8 then call.convertHex p
  else if c = 'd'.toUInt8 then call.convertDecimal p
  else if c = 's'.toUInt8 then call.convertString p
  else if c = 'c'.toUInt8 then call.convertChar p
  else p

/-- One character of the format. -/
def print (p : Printer) (c : UInt8) : Printer :=
  if p.format then call.convert p c
  else if c = '%'.toUInt8 then { p with format := true }
  else call.emit p c

/-- The loop over the format. -/
def prints (buf : Nat → UInt8) (fmt : List UInt8) : Printer :=
  fmt.foldl call.print { format := false, longarg := false, pos := 0, taken := [], out := buf }

/-- `lib_vsnprintf`. The result is `pos`, with the buffer and the arguments that were taken. -/
def vsnprintf (buf : Nat → UInt8) (fmt : CString) : Printer :=
  let p := call.prints buf fmt.bytes
  if call.out && p.pos < call.n then { p with out := Function.update p.out p.pos 0 }
  else if call.out && call.n ≠ 0 then { p with out := Function.update p.out (call.n - 1) 0 }
  else p

end PrintCall

/-! ## The text of a format -/

/-- Whether a conversion is open, the arguments that are taken, and the text so far. -/
structure Rendering where
  format : Bool
  taken : List (UInt8 × BitVec 32)
  text : List UInt8

namespace Rendering

/-- The eight hexadecimal digits of a word. -/
def hex (num : BitVec 32) : List UInt8 :=
  (List.range 8).reverse.map fun i => (Nat.digitChar (num.toNat / 16 ^ i % 16)).toUInt8

/-- The decimal digits of a natural number. -/
def digits (num : Nat) : List UInt8 := (Nat.toDigits 10 num).map Char.toUInt8

/-- A number in decimal, with its sign. -/
def signed (num : Int) : List UInt8 := if num < 0 then '-'.toUInt8 :: digits num.natAbs else digits num.natAbs

/-- The decimal text of a word, with a text of its own for the minimum. -/
def decimal (minimum : List UInt8) (num : BitVec 32) : List UInt8 :=
  if num = BitVec.intMin 32 then minimum else signed num.toInt

variable (minimum : List UInt8) (args : Nat → BitVec 32) (str : BitVec 32 → CString)

/-- Close a conversion with the text of its argument. -/
def take (r : Rendering) (conversion : Char) (text : BitVec 32 → List UInt8) : Rendering where
  format := false
  taken := r.taken ++ [(conversion.toUInt8, args r.taken.length)]
  text := r.text ++ text (args r.taken.length)

/-- One character of a format. A `%c` counts for one byte and takes no argument, as it does where nothing is
stored. -/
def step (r : Rendering) (c : UInt8) : Rendering :=
  if r.format then
    if c = 'p'.toUInt8 then r.take args 'x' fun num => ['0'.toUInt8, 'x'.toUInt8] ++ hex num
    else if c = 'x'.toUInt8 then r.take args 'x' hex
    else if c = 'd'.toUInt8 then r.take args 'd' (decimal minimum)
    else if c = 's'.toUInt8 then r.take args 's' fun pointer => (str pointer).bytes
    else if c = 'c'.toUInt8 then { r with format := false, text := r.text ++ [1] }
    else r
  else if c = '%'.toUInt8 then { r with format := true }
  else { r with text := r.text ++ [c] }

/-- The rendering of a format. -/
def of (fmt : List UInt8) : Rendering :=
  fmt.foldl (step minimum args str) { format := false, taken := [], text := [] }

end Rendering

/-! ## What is stored -/

namespace PrintCall

variable (call : PrintCall) {p : Printer} {r : Rendering} {buf : Nat → UInt8} {c : UInt8}

/-- The bytes of the buffer that can be stored. -/
def room : Nat := if call.out then call.n else 0

theorem stores_iff {pos : Nat} : (call.out && decide (pos < call.n)) = true ↔ pos < call.room := by
  unfold room
  cases call.out
  · simp
  · simp

theorem store_mod {pos : Nat} : call.store buf (pos % 2 ^ 32) c =
    BoundedBuffer.put (2 ^ 32) call.room buf pos c := by
  unfold store BoundedBuffer.put
  by_cases inside : pos % 2 ^ 32 < call.room
  · rw [if_pos (call.stores_iff.mpr inside), if_pos inside]
  · rw [if_neg (mt call.stores_iff.mp inside), if_neg inside]

/-- The run after a text. -/
def wrote (p : Printer) (text : List UInt8) : Printer :=
  { p with
    out := BoundedBuffer.puts (2 ^ 32) call.room p.out p.pos text
    pos := (p.pos + text.length) % 2 ^ 32 }

theorem foldl_emit (below : p.pos < 2 ^ 32) (text : List UInt8) :
    text.foldl call.emit p = call.wrote p text := by
  induction text generalizing p with
  | nil =>
      rw [wrote, BoundedBuffer.puts_nil, List.length_nil, Nat.add_zero, Nat.mod_eq_of_lt below, List.foldl_nil]
  | cons c text ih =>
      have stored : call.store p.out p.pos c = BoundedBuffer.put (2 ^ 32) call.room p.out p.pos c := by
        rw [← call.store_mod, Nat.mod_eq_of_lt below]
      rw [List.foldl_cons, ih (Nat.mod_lt _ (by decide)), wrote, wrote, emit, BoundedBuffer.puts_mod, stored,
        BoundedBuffer.puts_cons, List.length_cons]
      congr 1
      simp only
      omega

theorem emit_eq (below : p.pos < 2 ^ 32) : call.emit p c = call.wrote p [c] :=
  call.foldl_emit below [c]

/-- A run that has printed a rendering. -/
structure Prints (buf : Nat → UInt8) (p : Printer) (r : Rendering) : Prop where
  format : p.format = r.format
  taken : p.taken = r.taken
  pos : p.pos = r.text.length % 2 ^ 32
  out : p.out = BoundedBuffer.puts (2 ^ 32) call.room buf 0 r.text

variable {call}

theorem Prints.below (prints : call.Prints buf p r) : p.pos < 2 ^ 32 := by
  rw [prints.pos]
  exact Nat.mod_lt _ (by decide)

theorem Prints.vaArg (prints : call.Prints buf p r) : call.vaArg p = call.args r.taken.length := by
  rw [PrintCall.vaArg, prints.taken]

theorem Prints.wrote (prints : call.Prints buf p r) (text : List UInt8) :
    call.Prints buf (call.wrote p text) { r with text := r.text ++ text } where
  format := prints.format
  taken := prints.taken
  pos := by
    change (p.pos + text.length) % 2 ^ 32 = (r.text ++ text).length % 2 ^ 32
    rw [prints.pos, Nat.mod_add_mod, List.length_append]
  out := by
    change BoundedBuffer.puts _ _ p.out p.pos text = _
    rw [prints.out, prints.pos, BoundedBuffer.puts_mod, BoundedBuffer.puts_append, Nat.zero_add]

theorem Prints.foldl_emit (prints : call.Prints buf p r) (text : List UInt8) :
    call.Prints buf (text.foldl call.emit p) { r with text := r.text ++ text } := by
  rw [call.foldl_emit prints.below]
  exact prints.wrote text

/-- Take an argument and close the conversion. -/
theorem Prints.took (prints : call.Prints buf p r) (conversion : Char) :
    call.Prints buf (call.took p conversion)
      { r with taken := r.taken ++ [(conversion.toUInt8, call.args r.taken.length)] } where
  format := prints.format
  taken := by
    change p.taken ++ [(_, call.vaArg p)] = _
    rw [prints.vaArg, prints.taken]
  pos := prints.pos
  out := prints.out

theorem Prints.done (prints : call.Prints buf p r) : call.Prints buf (done p) { r with format := false } where
  format := rfl
  taken := prints.taken
  pos := prints.pos
  out := prints.out

/-! ## Conversions -/

/-- The shift and the mask of a hexadecimal digit. -/
theorem nibble (num : BitVec 32) {i : Nat} (low : i < 8) :
    (num.sshiftRight (4 * i) &&& 0xF).toNat = num.toNat / 16 ^ i % 16 := by
  have mask : num.sshiftRight (4 * i) &&& 0xF = num >>> (4 * i) &&& 0xF := by
    refine BitVec.eq_of_getLsbD_eq fun j _ => ?_
    rw [BitVec.getLsbD_and, BitVec.getLsbD_and]
    by_cases inside : j < 4
    · rw [BitVec.getLsbD_sshiftRight, BitVec.getLsbD_ushiftRight, if_pos (by omega)]
      rw [decide_eq_false (by omega), Bool.not_false, Bool.true_and]
    · have clear : BitVec.getLsbD (0xF : BitVec 32) j = false :=
        Nat.testBit_lt_two_pow (lt_of_lt_of_le (by decide : 15 < 2 ^ 4)
          (Nat.pow_le_pow_right (by decide) (by omega)))
      rw [clear, Bool.and_false, Bool.and_false]
  rw [mask, BitVec.toNat_and, BitVec.toNat_ushiftRight, Nat.shiftRight_eq_div_pow, Nat.pow_mul]
  exact Nat.and_two_pow_sub_one_eq_mod _ 4

theorem hexDigit_eq (num : BitVec 32) {i : Nat} (low : i < 8) :
    hexDigit num i = (Nat.digitChar (num.toNat / 16 ^ i % 16)).toUInt8 := by
  have table : ∀ d < 16, (if d < 10 then UInt8.ofNat (48 + d) else UInt8.ofNat (97 + d - 10)) =
      (Nat.digitChar d).toUInt8 := by decide
  rw [hexDigit, nibble num low]
  exact table _ (Nat.mod_lt _ (by decide))

theorem hex_eq (num : BitVec 32) : (List.range 8).reverse.map (hexDigit num) = Rendering.hex num := by
  refine List.map_congr_left fun i member => hexDigit_eq num ?_
  simpa using member

theorem Prints.convertHex (prints : call.Prints buf p r) :
    call.Prints buf (call.convertHex p) (r.take call.args 'x' Rendering.hex) := by
  have digits : call.convertHex p = PrintCall.done
      (((List.range 8).reverse.map (hexDigit (call.vaArg p))).foldl call.emit (call.took p 'x')) := by
    rw [PrintCall.convertHex, List.foldl_map, SIZEOF_INT, SIZEOF_LONG, ite_self]
  rw [digits, hex_eq, prints.vaArg]
  exact ((prints.took 'x').foldl_emit _).done

theorem Prints.convertString (prints : call.Prints buf p r) :
    call.Prints buf (call.convertString p) (r.take call.args 's' fun pointer => (call.str pointer).bytes) := by
  rw [PrintCall.convertString, prints.vaArg]
  exact ((prints.took 's').foldl_emit _).done

/-- A `%c` behind the bound takes nothing and stores nothing. -/
theorem Prints.convertChar (prints : call.Prints buf p r) (behind : call.room ≤ r.text.length % 2 ^ 32) :
    call.Prints buf (call.convertChar p) { r with format := false, text := r.text ++ [1] } := by
  have outside : ¬ (call.out && decide (p.pos < call.n)) = true := by
    rw [call.stores_iff, prints.pos]
    omega
  have skipped : call.convertChar p = PrintCall.done (call.emit p 1) := by
    rw [PrintCall.convertChar, if_neg outside, emit, store, if_neg outside]
  rw [skipped, call.emit_eq prints.below]
  exact (prints.wrote [1]).done

/-! ## Decimal digits -/

/-- The characters that `storeDigits` stores. -/
def digitList : Nat → Int → List UInt8
  | 0, _ => []
  | i + 1, num => digitList i (num.tdiv 10) ++ [decimalDigit num]

@[simp] theorem digitList_length (count : Nat) (num : Int) : (digitList count num).length = count := by
  induction count generalizing num with
  | zero => rfl
  | succ i ih => rw [digitList, List.length_append, ih, List.length_singleton]

/-- The digits are stored from the last one on, and stand as if they were stored from the first one on. -/
theorem storeDigits_eq {pos count : Nat} {num : Int} (few : count ≤ 2 ^ 32) :
    call.storeDigits pos count num buf =
      BoundedBuffer.puts (2 ^ 32) call.room buf pos (digitList count num) := by
  induction count generalizing num buf with
  | zero => rfl
  | succ i ih =>
      have apart : ∀ j < (digitList i (num.tdiv 10)).length, (pos + j) % 2 ^ 32 ≠ (pos + i) % 2 ^ 32 := by
        intro j less same
        rw [digitList_length] at less
        omega
      rw [storeDigits, ih (by omega), store_mod, BoundedBuffer.puts_put apart, digitList,
        BoundedBuffer.puts_append, digitList_length, BoundedBuffer.puts_cons, BoundedBuffer.puts_nil]

theorem digitCount_le (num : Int) : digitCount num ≤ num.natAbs + 1 := by
  induction num using digitCount.induct with
  | case1 nn last => rw [digitCount, if_pos last]; omega
  | case2 nn more ih =>
      have smaller : (nn.tdiv 10).natAbs < nn.natAbs := by
        rw [Int.natAbs_tdiv]
        refine Nat.div_lt_self (Int.natAbs_pos.mpr ?_) (by decide)
        rintro rfl
        exact more (by decide)
      rw [digitCount, if_neg more]
      omega

theorem decimalDigit_nat (num : Nat) : decimalDigit num = (Nat.digitChar (num % 10)).toUInt8 := by
  have table : ∀ d : Nat, d < 10 → UInt8.ofInt (48 + (d : Int)) = (Nat.digitChar d).toUInt8 := by decide
  rw [decimalDigit, Int.tmod_eq_emod_of_nonneg (by omega)]
  exact_mod_cast table (num % 10) (Nat.mod_lt _ (by decide))

/-- The decimal text of a number that is not negative. -/
theorem digitList_nat (num : Nat) : digitList (digitCount num) num = Rendering.digits num := by
  induction num using Nat.strong_induction_on with
  | _ num ih =>
      have quotient : (num : Int).tdiv 10 = ((num / 10 : Nat) : Int) := rfl
      rw [digitCount, quotient]
      by_cases last : num < 10
      · have zero : ((num / 10 : Nat) : Int) = 0 := by omega
        rw [if_pos zero, digitList, digitList, List.nil_append, decimalDigit_nat, Rendering.digits,
          Nat.toDigits_of_lt_base last, Nat.mod_eq_of_lt last]
        rfl
      · have nonzero : ¬ ((num / 10 : Nat) : Int) = 0 := by omega
        have parts := Nat.toDigits_append_toDigits (b := 10) (n := num / 10) (d := num % 10) (by decide)
          (by omega) (Nat.mod_lt num (by decide))
        rw [Nat.div_add_mod, Nat.toDigits_of_lt_base (Nat.mod_lt num (by decide))] at parts
        rw [if_neg nonzero, digitList, quotient, ih (num / 10) (by omega), decimalDigit_nat, Rendering.digits,
          Rendering.digits, ← parts, List.map_append]
        rfl

/-- What the code prints for the minimum. -/
def minimumText : List UInt8 := ['-', '.', '/', ',', ')', ',', '(', '-', '*', ',', '('].map Char.toUInt8

/-- The number that `%d` divides. -/
def magnitude (num : Int) : Int := if num < 0 then (-num).bmod (2 ^ 32) else num

theorem magnitude_nat {v : BitVec 32} (ordinary : v ≠ BitVec.intMin 32) :
    magnitude v.toInt = (v.toInt.natAbs : Int) := by
  have low : (-2 ^ 31 : Int) ≤ v.toInt := v.le_toInt
  have high : v.toInt < 2 ^ 31 := v.toInt_lt
  have apart : v.toInt ≠ -2 ^ 31 := by
    intro same
    exact ordinary (BitVec.eq_of_toInt_eq (by rw [same]; decide))
  rw [magnitude]
  split
  · rw [Int.bmod_eq_of_le (by omega) (by omega)]
    omega
  · omega

theorem digitCount_minimum : digitCount (-2 ^ 31) = 10 := by
  simp [digitCount]

/-- The characters of `%d`. -/
theorem decimal_eq (v : BitVec 32) :
    (if v.toInt < 0 then ['-'.toUInt8] else []) ++
        digitList (digitCount (magnitude v.toInt)) (magnitude v.toInt) = Rendering.decimal minimumText v := by
  by_cases minimum : v = BitVec.intMin 32
  · have number : v.toInt = -2 ^ 31 := by
      rw [minimum]
      decide
    have wraps : magnitude (-2 ^ 31) = -2 ^ 31 := by decide
    rw [Rendering.decimal, if_pos minimum, number, wraps, digitCount_minimum]
    decide
  · rw [Rendering.decimal, if_neg minimum, magnitude_nat minimum, digitList_nat, Rendering.signed]
    split
    · rfl
    · rfl

theorem Prints.convertDecimal (prints : call.Prints buf p r) :
    call.Prints buf (call.convertDecimal p) (r.take call.args 'd' (Rendering.decimal minimumText)) := by
  have bound : digitCount (magnitude (call.vaArg p).toInt) ≤ 2 ^ 32 := by
    have count := digitCount_le (magnitude (call.vaArg p).toInt)
    have low : (-2 ^ 31 : Int) ≤ (call.vaArg p).toInt := (call.vaArg p).le_toInt
    have high : (call.vaArg p).toInt < 2 ^ 31 := (call.vaArg p).toInt_lt
    by_cases minimum : call.vaArg p = BitVec.intMin 32
    · rw [minimum]
      have wraps : magnitude (BitVec.intMin 32).toInt = -2 ^ 31 := by decide
      rw [wraps, digitCount_minimum]
      decide
    · rw [magnitude_nat minimum] at count ⊢
      omega
  have signed : call.Prints buf
      (if (call.vaArg p).toInt < 0 then call.emit (call.took p 'd') '-'.toUInt8 else call.took p 'd')
      { r with
        taken := r.taken ++ [('d'.toUInt8, call.args r.taken.length)]
        text := r.text ++ if (call.vaArg p).toInt < 0 then ['-'.toUInt8] else [] } := by
    split
    · rw [call.emit_eq (prints.took 'd').below]
      exact (prints.took 'd').wrote _
    · rw [List.append_nil]
      exact prints.took 'd'
  have whole := (signed.wrote (digitList (digitCount (magnitude (call.vaArg p).toInt))
    (magnitude (call.vaArg p).toInt))).done
  simp only [List.append_assoc, decimal_eq] at whole
  rw [prints.vaArg] at whole
  rw [PrintCall.convertDecimal, ← magnitude, storeDigits_eq bound, prints.vaArg]
  rw [PrintCall.wrote, digitList_length] at whole
  exact whole

/-- One character of the format, where no `%c` takes an argument. -/
theorem Prints.print (prints : call.Prints buf p r)
    (behind : r.format = true → c = 'c'.toUInt8 → call.room ≤ r.text.length % 2 ^ 32) :
    call.Prints buf (call.print p c) (r.step minimumText call.args call.str c) := by
  rw [PrintCall.print, Rendering.step, prints.format]
  by_cases format : r.format = true
  · rw [if_pos format, if_pos format, PrintCall.convert]
    by_cases l : c = 'l'.toUInt8
    · subst l
      exact ⟨prints.format, prints.taken, prints.pos, prints.out⟩
    rw [if_neg l]
    by_cases pointer : c = 'p'.toUInt8
    · rw [if_pos pointer, if_pos pointer]
      have longarg : call.Prints buf { p with longarg := true } r :=
        ⟨prints.format, prints.taken, prints.pos, prints.out⟩
      have lead := (longarg.foldl_emit ['0'.toUInt8, 'x'.toUInt8]).convertHex
      simp only [List.append_assoc, Rendering.take] at lead
      exact lead
    rw [if_neg pointer, if_neg pointer]
    by_cases hex : c = 'x'.toUInt8
    · rw [if_pos hex, if_pos hex]
      exact prints.convertHex
    rw [if_neg hex, if_neg hex]
    by_cases decimal : c = 'd'.toUInt8
    · rw [if_pos decimal, if_pos decimal]
      exact prints.convertDecimal
    rw [if_neg decimal, if_neg decimal]
    by_cases string : c = 's'.toUInt8
    · rw [if_pos string, if_pos string]
      exact prints.convertString
    rw [if_neg string, if_neg string]
    by_cases char : c = 'c'.toUInt8
    · rw [if_pos char, if_pos char]
      exact prints.convertChar (behind format char)
    rw [if_neg char, if_neg char]
    exact prints
  · rw [if_neg format, if_neg format]
    by_cases percent : c = '%'.toUInt8
    · rw [if_pos percent, if_pos percent]
      exact ⟨rfl, prints.taken, prints.pos, prints.out⟩
    · rw [if_neg percent, if_neg percent, call.emit_eq prints.below]
      exact prints.wrote [c]

end PrintCall

/-! ## Renderings -/

namespace Rendering

variable {minimum minimum' : List UInt8} {args : Nat → BitVec 32} {str : BitVec 32 → CString} {r : Rendering}
  {c : UInt8} {fmt more : List UInt8}

@[simp] theorem of_nil : of minimum args str [] = { format := false, taken := [], text := [] } := rfl

theorem of_append : of minimum args str (fmt ++ more) =
    more.foldl (step minimum args str) (of minimum args str fmt) := by
  rw [of, of, List.foldl_append]

theorem of_concat : of minimum args str (fmt ++ [c]) =
    (of minimum args str fmt).step minimum args str c := of_append

/-- The text of the minimum. -/
def minimumText : List UInt8 := signed (-2 ^ 31)

/-- What a format and its arguments stand for. -/
def reference (args : Nat → BitVec 32) (str : BitVec 32 → CString) (fmt : List UInt8) : Rendering :=
  of minimumText args str fmt

/-- What a character adds to the text. -/
def piece (minimum : List UInt8) (args : Nat → BitVec 32) (str : BitVec 32 → CString) (r : Rendering)
    (c : UInt8) : List UInt8 :=
  let num := args r.taken.length
  if r.format then
    if c = 'p'.toUInt8 then ['0'.toUInt8, 'x'.toUInt8] ++ hex num
    else if c = 'x'.toUInt8 then hex num
    else if c = 'd'.toUInt8 then decimal minimum num
    else if c = 's'.toUInt8 then (str num).bytes
    else if c = 'c'.toUInt8 then [1]
    else []
  else if c = '%'.toUInt8 then [] else [c]

theorem step_text : (r.step minimum args str c).text = r.text ++ r.piece minimum args str c := by
  unfold step piece
  split
  · split
    · rfl
    split
    · rfl
    split
    · rfl
    split
    · rfl
    split
    · rfl
    · rw [List.append_nil]
  · split
    · rw [List.append_nil]
    · rfl

theorem prefix_of_append : (of minimum args str fmt).text <+: (of minimum args str (fmt ++ more)).text := by
  induction more using List.reverseRecOn with
  | nil => rw [List.append_nil]
  | append_singleton more c ih =>
      rw [← List.append_assoc, of_concat, step_text]
      exact ih.trans (List.prefix_append _ _)

/-- Two renderings that differ at most in the text of the minimum. -/
structure Alike (r r' : Rendering) : Prop where
  format : r.format = r'.format
  taken : r.taken = r'.taken
  length : r.text.length = r'.text.length

theorem decimal_length (same : minimum.length = minimum'.length) (num : BitVec 32) :
    (decimal minimum num).length = (decimal minimum' num).length := by
  unfold decimal
  split
  · exact same
  · rfl

theorem Alike.step (same : minimum.length = minimum'.length) {r' : Rendering} (alike : Alike r r') :
    Alike (r.step minimum args str c) (r'.step minimum' args str c) := by
  have pieces : (r.piece minimum args str c).length = (r'.piece minimum' args str c).length := by
    rw [piece, piece, alike.format, alike.taken]
    split_ifs
    all_goals first | rfl | exact decimal_length same _
  refine ⟨?_, ?_, by rw [step_text, step_text, List.length_append, List.length_append, alike.length, pieces]⟩
  · rw [Rendering.step, Rendering.step, alike.format]
    split_ifs
    all_goals first | rfl | exact alike.format
  · rw [Rendering.step, Rendering.step, alike.format]
    split_ifs
    all_goals first | exact alike.taken | simp only [take, alike.taken]

theorem of_alike (args : Nat → BitVec 32) (str : BitVec 32 → CString) (fmt : List UInt8)
    (same : minimum.length = minimum'.length) : Alike (of minimum args str fmt) (of minimum' args str fmt) := by
  induction fmt using List.reverseRecOn with
  | nil => exact ⟨rfl, rfl, rfl⟩
  | append_singleton fmt c ih =>
      rw [of_concat, of_concat]
      exact ih.step same

theorem minimumText_length : PrintCall.minimumText.length = minimumText.length := by decide

/-- A rendering takes no argument for a `%c`. -/
theorem of_taken : ∀ e ∈ (of minimum args str fmt).taken, e.1 ≠ 'c'.toUInt8 := by
  induction fmt using List.reverseRecOn with
  | nil => simp
  | append_singleton fmt c ih =>
      rw [of_concat, step]
      split_ifs
      all_goals first
        | exact ih
        | · simp only [take, List.forall_mem_append, List.forall_mem_singleton]
            exact ⟨ih, by decide⟩

end Rendering

/-! ## Whole runs -/

namespace PrintCall

variable {call : PrintCall} {buf : Nat → UInt8} {fmt more : List UInt8} {c : UInt8} {p : Printer}

@[simp] theorem prints_nil : call.prints buf [] =
    { format := false, longarg := false, pos := 0, taken := [], out := buf } := rfl

theorem prints_concat : call.prints buf (fmt ++ [c]) = call.print (call.prints buf fmt) c := by
  rw [prints, prints, List.foldl_append]
  rfl

/-- No `%c` is converted where there is room. -/
def Behind (call : PrintCall) (fmt : List UInt8) : Prop :=
  ∀ before after, fmt = before ++ 'c'.toUInt8 :: after →
    (Rendering.of minimumText call.args call.str before).format = true →
    call.room ≤ (Rendering.of minimumText call.args call.str before).text.length % 2 ^ 32

theorem Behind.of_concat (behind : call.Behind (fmt ++ [c])) : call.Behind fmt := by
  rintro before after rfl
  exact behind before (after ++ [c]) (by simp)

/-- Such a run prints the rendering. -/
theorem Behind.prints (behind : call.Behind fmt) (buf : Nat → UInt8) :
    call.Prints buf (call.prints buf fmt) (Rendering.of minimumText call.args call.str fmt) := by
  induction fmt using List.reverseRecOn with
  | nil => exact ⟨rfl, rfl, rfl, rfl⟩
  | append_singleton fmt c ih =>
      rw [prints_concat, Rendering.of_concat]
      refine (ih behind.of_concat).print fun format char => ?_
      subst char
      exact behind fmt [] rfl format

theorem foldl_emit_taken (text : List UInt8) : (text.foldl call.emit p).taken = p.taken := by
  induction text generalizing p with
  | nil => rfl
  | cons c text ih => rw [List.foldl_cons, ih, emit]

/-- What was taken stays taken. -/
theorem taken_begins : p.taken <+: (call.print p c).taken := by
  have took (q : Printer) (same : q.taken = p.taken) (conversion : Char) :
      p.taken <+: (call.took q conversion).taken := by
    rw [PrintCall.took, same]
    exact List.prefix_append _ _
  have hex (q : Printer) (same : q.taken = p.taken) : p.taken <+: (call.convertHex q).taken := by
    rw [convertHex, ← List.foldl_map, done, foldl_emit_taken]
    exact took q same 'x'
  rw [print, convert]
  split_ifs
  · exact List.prefix_rfl
  · exact hex _ rfl
  · exact hex _ rfl
  · rw [convertDecimal, done]
    dsimp only
    split
    · exact took p rfl 'd'
    · exact took p rfl 'd'
  · rw [convertString, done, foldl_emit_taken]
    exact took p rfl 's'
  · rw [convertChar, done]
    dsimp only
    split
    · exact took p rfl 'c'
    · exact List.prefix_rfl
  · exact List.prefix_rfl
  · exact List.prefix_rfl
  · exact List.prefix_rfl

/-- A run that took no argument for a `%c` met none where there was room. -/
theorem behind_of_taken (buf : Nat → UInt8)
    (none : ∀ e ∈ (call.prints buf fmt).taken, e.1 ≠ 'c'.toUInt8) : call.Behind fmt := by
  induction fmt using List.reverseRecOn with
  | nil =>
      intro before after same
      simp at same
  | append_singleton fmt c ih =>
      rw [prints_concat] at none
      have behind : call.Behind fmt := ih fun e member => none e (taken_begins.subset member)
      intro before after same format
      obtain ⟨rfl, last⟩ | ⟨after', rfl, rfl⟩ : (after = [] ∧ fmt ++ [c] = before ++ ['c'.toUInt8]) ∨
          ∃ after', after = after' ++ [c] ∧ fmt = before ++ 'c'.toUInt8 :: after' := by
        rcases List.eq_nil_or_concat after with rfl | ⟨after', d, rfl⟩
        · exact .inl ⟨rfl, same⟩
        · rw [List.concat_eq_append, ← List.cons_append, ← List.append_assoc] at same
          obtain ⟨front, back⟩ := List.append_inj' same rfl
          rw [List.cons.injEq] at back
          exact .inr ⟨after', by rw [back.1, List.concat_eq_append], front⟩
      · obtain ⟨rfl, char⟩ := List.append_inj' last rfl
        have prints := behind.prints buf
        by_contra room
        rw [not_le, ← prints.pos] at room
        refine none ('c'.toUInt8, call.vaArg (call.prints buf fmt)) ?_ rfl
        rw [List.cons.injEq] at char
        rw [char.1, print, prints.format, if_pos format, convert, if_neg (by decide), if_neg (by decide),
          if_neg (by decide), if_neg (by decide), if_neg (by decide), if_pos rfl, convertChar,
          if_pos (call.stores_iff.mpr room)]
        exact List.mem_append_right _ (List.mem_singleton.mpr rfl)
      · exact behind before after' rfl format

@[simp] theorem vsnprintf_pos (text : CString) :
    (call.vsnprintf buf text).pos = (call.prints buf text.bytes).pos := by
  rw [vsnprintf]
  split_ifs
  all_goals rfl

@[simp] theorem vsnprintf_taken (text : CString) :
    (call.vsnprintf buf text).taken = (call.prints buf text.bytes).taken := by
  rw [vsnprintf]
  split_ifs
  all_goals rfl

/-! ## Measuring -/

/-- The length that is returned and the arguments that are taken are the same for every buffer and size. -/
def Measures (args : Nat → BitVec 32) (str : BitVec 32 → CString) (fmt : CString) : Prop :=
  ∀ (out out' : Bool) (n n' : Nat) (buf buf' : Nat → UInt8), n < 2 ^ 32 → n' < 2 ^ 32 →
    (vsnprintf ⟨args, str, out, n⟩ buf fmt).pos = (vsnprintf ⟨args, str, out', n'⟩ buf' fmt).pos ∧
    (vsnprintf ⟨args, str, out, n⟩ buf fmt).taken = (vsnprintf ⟨args, str, out', n'⟩ buf' fmt).taken

/-- Every `%c` is converted behind the last byte that a buffer can have. -/
def CharsAtEnd (args : Nat → BitVec 32) (str : BitVec 32 → CString) (fmt : CString) : Prop :=
  ∀ before after, fmt.bytes = before ++ 'c'.toUInt8 :: after →
    (Rendering.reference args str before).format = true →
    (Rendering.reference args str before).text.length % 2 ^ 32 = 2 ^ 32 - 1

theorem charsAtEnd_iff {args : Nat → BitVec 32} {str : BitVec 32 → CString} {fmt : CString} :
    CharsAtEnd args str fmt ↔ Behind ⟨args, str, true, 2 ^ 32 - 1⟩ fmt.bytes := by
  have bound (length : Nat) : length % 2 ^ 32 = 2 ^ 32 - 1 ↔ 2 ^ 32 - 1 ≤ length % 2 ^ 32 := by omega
  refine forall₂_congr fun before after => ?_
  have alike := Rendering.of_alike args str before Rendering.minimumText_length
  rw [Rendering.reference, ← alike.format, ← alike.length, bound]
  rfl

/-- `lib_vsnprintf` measures what it writes if and only if no `%c` ever takes its argument. -/
theorem measures_iff (args : Nat → BitVec 32) (str : BitVec 32 → CString) (fmt : CString) :
    Measures args str fmt ↔ CharsAtEnd args str fmt := by
  rw [charsAtEnd_iff]
  constructor
  · intro measures
    have measured : Behind ⟨args, str, false, 0⟩ fmt.bytes := fun _ _ _ _ => Nat.zero_le _
    have same := (measures true false (2 ^ 32 - 1) 0 (fun _ => 0) (fun _ => 0) (by decide) (by decide)).2
    rw [vsnprintf_taken, vsnprintf_taken, (measured.prints _).taken] at same
    refine behind_of_taken (fun _ => 0) ?_
    rw [same]
    exact Rendering.of_taken
  · intro behind out out' n n' buf buf' bounded bounded'
    have every (out : Bool) {n : Nat} (bounded : n < 2 ^ 32) : Behind ⟨args, str, out, n⟩ fmt.bytes := by
      intro before after same format
      refine le_trans ?_ (behind before after same format)
      simp only [room, if_true]
      split
      · omega
      · omega
    have left := (every out bounded).prints buf
    have right := (every out' bounded').prints buf'
    rw [vsnprintf_pos, vsnprintf_pos, vsnprintf_taken, vsnprintf_taken]
    exact ⟨left.pos.trans right.pos.symm, left.taken.trans right.taken.symm⟩

/-- The measuring run of `"%c%x"` takes the character for the number. -/
theorem measures_not : ¬ Measures (fun i => BitVec.ofNat 32 (i + 65))
    (fun _ => CString.ofChars [] (CString.nonzero_of_all rfl))
    (CString.ofChars ['%', 'c', '%', 'x'] (CString.nonzero_of_all rfl)) := by
  intro measures
  have same := (measures true false 1000 (2 ^ 32 - 1) (fun _ => 0) (fun _ => 0) (by decide) (by decide)).2
  revert same
  rw [vsnprintf_taken, vsnprintf_taken]
  decide

end PrintCall

end Riscv2os.MiniRiscvOs
