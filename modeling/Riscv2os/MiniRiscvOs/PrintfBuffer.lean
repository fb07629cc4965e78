import Riscv2os.MiniRiscvOs.Printf

/-!
# The buffer behind formatted output

What `lib_vsnprintf` leaves in a buffer of `n` bytes, for a format without `%c`, compared with the
reference text. It differs where a digit of the minimum comes to stand in the buffer: the negation of the
minimum is negative, and so are its digits. `lib_vprintf` measures, and prints into a buffer of 1000 bytes.
-/

namespace Riscv2os.MiniRiscvOs

open Riscv2os.Std

namespace Rendering

variable {minimum : List UInt8} {args : Nat → BitVec 32} {str : BitVec 32 → CString} {r : Rendering} {c : UInt8}
  {fmt : List UInt8}

theorem digits_nonzero (num : Nat) : (0 : UInt8) ∉ digits num := by
  rw [digits, List.mem_map]
  rintro ⟨char, member, zero⟩
  have digit := Nat.isDigit_of_mem_toDigits (by decide) le_rfl member
  rw [Char.isDigit, Bool.and_eq_true, decide_eq_true_eq, decide_eq_true_eq] at digit
  have low : 48 ≤ char.val.toNat := digit.1
  have high : char.val.toNat ≤ 57 := digit.2
  have value : char.val.toNat % 2 ^ 8 = 0 := congrArg UInt8.toNat zero
  omega

theorem signed_nonzero (num : Int) : (0 : UInt8) ∉ signed num := by
  rw [signed]
  split
  · rw [List.mem_cons, not_or]
    exact ⟨by decide, digits_nonzero _⟩
  · exact digits_nonzero _

theorem hex_nonzero (num : BitVec 32) : (0 : UInt8) ∉ hex num := by
  have table : ∀ d < 16, (Nat.digitChar d).toUInt8 ≠ 0 := by decide
  rw [hex, List.mem_map]
  rintro ⟨i, -, zero⟩
  exact table _ (Nat.mod_lt _ (by decide)) zero

theorem decimal_nonzero (num : BitVec 32) : (0 : UInt8) ∉ decimal minimumText num := by
  rw [decimal]
  split
  · exact signed_nonzero _
  · exact signed_nonzero _

theorem piece_nonzero (nonzero : c ≠ 0) : (0 : UInt8) ∉ r.piece minimumText args str c := by
  rw [piece]
  split_ifs
  · rw [List.mem_append, not_or]
    exact ⟨by decide, hex_nonzero _⟩
  · exact hex_nonzero _
  · exact decimal_nonzero _
  · exact CString.nonzero _
  · decide
  · exact List.not_mem_nil
  · exact List.not_mem_nil
  · rw [List.mem_singleton]
    exact nonzero.symm

/-- A reference text has no zero byte. -/
theorem reference_nonzero (nonzero : (0 : UInt8) ∉ fmt) : (0 : UInt8) ∉ (reference args str fmt).text := by
  induction fmt using List.reverseRecOn with
  | nil => exact List.not_mem_nil
  | append_singleton fmt c ih =>
      rw [List.mem_append, not_or, List.mem_singleton] at nonzero
      rw [reference, of_concat, step_text, List.mem_append, not_or]
      exact ⟨ih nonzero.1, piece_nonzero (Ne.symm nonzero.2)⟩

end Rendering

namespace PrintCall

variable {args : Nat → BitVec 32} {str : BitVec 32 → CString} {n : Nat} {fmt : CString} {buf : Nat → UInt8}

/-- The run of `lib_vsnprintf` into a buffer of `n` bytes does what it should: nothing else is written, there is
a zero behind the text or at the last byte, and in front of it is the reference text. -/
structure Renders (args : Nat → BitVec 32) (str : BitVec 32 → CString) (n : Nat) (buf : Nat → UInt8)
    (fmt : CString) : Prop where
  inside : ∀ k, n ≤ k → (vsnprintf ⟨args, str, true, n⟩ buf fmt).out k = buf k
  ends : (vsnprintf ⟨args, str, true, n⟩ buf fmt).out
    (min (Rendering.reference args str fmt.bytes).text.length (n - 1)) = 0
  text : ∀ k < min (Rendering.reference args str fmt.bytes).text.length (n - 1),
    (Rendering.reference args str fmt.bytes).text[k]? = some ((vsnprintf ⟨args, str, true, n⟩ buf fmt).out k)

/-- A format that converts no `%c`. -/
def NoChar (args : Nat → BitVec 32) (str : BitVec 32 → CString) (fmt : CString) : Prop :=
  ∀ before after, fmt.bytes = before ++ 'c'.toUInt8 :: after →
    (Rendering.reference args str before).format = false

/-- At most the sign of a minimum comes to stand in front of the last byte of the buffer. -/
def MinimumBehind (args : Nat → BitVec 32) (str : BitVec 32 → CString) (n : Nat) (fmt : CString) : Prop :=
  ∀ before after, fmt.bytes = before ++ 'd'.toUInt8 :: after →
    (Rendering.reference args str before).format = true →
    args (Rendering.reference args str before).taken.length = BitVec.intMin 32 →
    n ≤ (Rendering.reference args str before).text.length + 2

/-- The positions wrap, and the last lap over the buffer repeats the start of the text. -/
def LastLap (args : Nat → BitVec 32) (str : BitVec 32 → CString) (n : Nat) (fmt : CString) : Prop :=
  n - 1 ≤ (Rendering.reference args str fmt.bytes).text.length % 2 ^ 32 ∧ ∀ k < n - 1,
    (Rendering.of minimumText args str fmt.bytes).text[k +
      (Rendering.reference args str fmt.bytes).text.length / 2 ^ 32 * 2 ^ 32]? =
      (Rendering.reference args str fmt.bytes).text[k]?

theorem NoChar.of_not_mem (none : 'c'.toUInt8 ∉ fmt.bytes) : NoChar args str fmt := by
  intro before after same
  rw [same] at none
  exact absurd (List.mem_append_right _ List.mem_cons_self) none

theorem NoChar.behind (noChar : NoChar args str fmt) (out : Bool) (n : Nat) :
    Behind ⟨args, str, out, n⟩ fmt.bytes := by
  intro before after same format
  have alike := Rendering.of_alike args str before Rendering.minimumText_length
  change (Rendering.of minimumText args str before).format = true at format
  have closed := noChar before after same
  rw [Rendering.reference, ← alike.format, format] at closed
  cases closed

theorem printed_length : (Rendering.of minimumText args str fmt.bytes).text.length =
    (Rendering.reference args str fmt.bytes).text.length :=
  (Rendering.of_alike args str fmt.bytes Rendering.minimumText_length).length

/-- The buffer at the end of a run without `%c`. -/
theorem NoChar.out (noChar : NoChar args str fmt) (positive : 0 < n) (buf : Nat → UInt8) :
    (vsnprintf ⟨args, str, true, n⟩ buf fmt).out =
      Function.update (BoundedBuffer.puts (2 ^ 32) n buf 0 (Rendering.of minimumText args str fmt.bytes).text)
        (min ((Rendering.reference args str fmt.bytes).text.length % 2 ^ 32) (n - 1)) 0 := by
  have printed := (noChar.behind true n).prints buf
  have pos : (prints ⟨args, str, true, n⟩ buf fmt.bytes).pos =
      (Rendering.reference args str fmt.bytes).text.length % 2 ^ 32 := by
    rw [printed.pos, ← printed_length]
  have out : (prints ⟨args, str, true, n⟩ buf fmt.bytes).out =
      BoundedBuffer.puts (2 ^ 32) n buf 0 (Rendering.of minimumText args str fmt.bytes).text := printed.out
  rw [vsnprintf]
  simp only [Bool.true_and, decide_eq_true_eq]
  rw [pos]
  split
  · next below =>
    rw [min_eq_left (by omega), ← out]
  · next behind =>
    rw [if_pos (by omega), min_eq_right (by omega), ← out]

/-- The pieces of a character agree unless it prints the minimum. -/
theorem piece_agree {r r' : Rendering} {c : UInt8} (alike : Rendering.Alike r r')
    (ordinary : r'.format = true → c = 'd'.toUInt8 → args r'.taken.length ≠ BitVec.intMin 32) :
    r.piece minimumText args str c = r'.piece Rendering.minimumText args str c := by
  rw [Rendering.piece, Rendering.piece, alike.format, alike.taken]
  split_ifs
  all_goals first | rfl | skip
  next format _ _ char =>
    have other := ordinary format char
    rw [Rendering.decimal, Rendering.decimal, if_neg other, if_neg other]

theorem piece_minimum {minimum : List UInt8} {r : Rendering} (format : r.format = true)
    (least : args r.taken.length = BitVec.intMin 32) : r.piece minimum args str 'd'.toUInt8 = minimum := by
  rw [Rendering.piece, if_pos format, if_neg (by decide), if_neg (by decide), if_pos rfl, Rendering.decimal,
    if_pos least]

/-- The printed text is the reference in front of the last byte of the buffer. -/
theorem agree_iff : (∀ k < n - 1, (Rendering.of minimumText args str fmt.bytes).text[k]? =
    (Rendering.reference args str fmt.bytes).text[k]?) ↔ MinimumBehind args str n fmt := by
  unfold MinimumBehind
  generalize fmt.bytes = fmt
  constructor
  · rintro agree before after rfl format least
    by_contra room
    have alike := Rendering.of_alike args str before Rendering.minimumText_length
    have split : before ++ 'd'.toUInt8 :: after = before ++ ['d'.toUInt8] ++ after := by simp
    have second (minimum : List UInt8) (eleven : minimum.length = 11)
        (open_ : (Rendering.of minimum args str before).format = true)
        (last : args (Rendering.of minimum args str before).taken.length = BitVec.intMin 32) :
        (Rendering.of minimum args str (before ++ 'd'.toUInt8 :: after)).text[
          (Rendering.of minimum args str before).text.length + 1]? = minimum[1]? := by
      obtain ⟨rest, whole⟩ : (Rendering.of minimum args str (before ++ ['d'.toUInt8])).text <+:
          (Rendering.of minimum args str (before ++ ['d'.toUInt8] ++ after)).text := Rendering.prefix_of_append
      rw [split, ← whole, Rendering.of_concat, Rendering.step_text, piece_minimum open_ last,
        List.append_assoc, List.getElem?_append_right (by omega), Nat.add_sub_cancel_left,
        List.getElem?_append_left (by omega)]
    have printed := second minimumText (by decide) (alike.format.trans format)
      ((congrArg (fun taken => args taken.length) alike.taken).trans least)
    have wanted := second Rendering.minimumText (by decide) format least
    have same := agree ((Rendering.reference args str before).text.length + 1) (by omega)
    rw [Rendering.reference] at same
    rw [← Rendering.reference] at wanted
    rw [alike.length] at printed
    have digits := (printed.symm.trans same).trans wanted
    revert digits
    decide
  · intro behind
    induction fmt using List.reverseRecOn with
    | nil => exact fun _ _ => rfl
    | append_singleton fmt c ih =>
        have agree := ih fun before after same => behind before (after ++ [c]) (by rw [same]; simp)
        have alike := Rendering.of_alike args str fmt Rendering.minimumText_length
        intro k less
        rw [Rendering.reference, Rendering.of_concat, Rendering.of_concat, Rendering.step_text,
          Rendering.step_text]
        rcases Nat.lt_or_ge k (Rendering.of minimumText args str fmt).text.length with front | tail
        · rw [List.getElem?_append_left front, List.getElem?_append_left (alike.length ▸ front)]
          exact agree k less
        rw [List.getElem?_append_right tail, List.getElem?_append_right (alike.length ▸ tail), alike.length]
        by_cases least : (Rendering.reference args str fmt).format = true ∧ c = 'd'.toUInt8 ∧
            args (Rendering.reference args str fmt).taken.length = BitVec.intMin 32
        · obtain ⟨format, rfl, least⟩ := least
          have room := behind fmt [] rfl format least
          rw [Rendering.reference] at room format least
          have first : k - (Rendering.of Rendering.minimumText args str fmt).text.length = 0 := by omega
          rw [first, piece_minimum (alike.format.trans format)
            ((congrArg (fun taken => args taken.length) alike.taken).trans least), piece_minimum format least]
          decide
        · rw [piece_agree alike fun format char same => least ⟨format, char, same⟩]

/-- What a byte in front of the last one is, but for the zero. -/
theorem puts_printed {k : Nat} (bounded : n < 2 ^ 32) (less : k < n)
    (inside : k < (Rendering.reference args str fmt.bytes).text.length) :
    some (BoundedBuffer.puts (2 ^ 32) n buf 0 (Rendering.of minimumText args str fmt.bytes).text k) =
      (Rendering.of minimumText args str fmt.bytes).text[k +
        ((Rendering.reference args str fmt.bytes).text.length - 1 - k) / 2 ^ 32 * 2 ^ 32]? := by
  have floor := Nat.div_mul_le_self ((Rendering.reference args str fmt.bytes).text.length - 1 - k) (2 ^ 32)
  rw [BoundedBuffer.puts_apply bounded.le less, printed_length, if_pos inside,
    List.getD_eq_getElem _ _ (by rw [printed_length]; omega), List.getElem?_eq_getElem]

/-- A text that does not wrap is printed if and only if no digit of a minimum comes to stand in the buffer. -/
theorem renders_short (positive : 0 < n) (bounded : n < 2 ^ 32) (noChar : NoChar args str fmt)
    (short : (Rendering.reference args str fmt.bytes).text.length < 2 ^ 32) (buf : Nat → UInt8) :
    Renders args str n buf fmt ↔ MinimumBehind args str n fmt := by
  have out := noChar.out positive buf
  rw [Nat.mod_eq_of_lt short] at out
  have byte {k : Nat} (less : k < min (Rendering.reference args str fmt.bytes).text.length (n - 1)) :
      some ((vsnprintf ⟨args, str, true, n⟩ buf fmt).out k) =
        (Rendering.of minimumText args str fmt.bytes).text[k]? := by
    rw [lt_min_iff] at less
    rw [out, Function.update_of_ne (by omega), puts_printed bounded (by omega) less.1,
      Nat.div_eq_of_lt (by omega), Nat.zero_mul, Nat.add_zero]
  rw [← agree_iff]
  constructor
  · intro renders k less
    rcases Nat.lt_or_ge k (Rendering.reference args str fmt.bytes).text.length with inside | behind
    · rw [renders.text k (lt_min inside less), byte (lt_min inside less)]
    · rw [List.getElem?_eq_none behind, List.getElem?_eq_none (by rw [printed_length]; exact behind)]
  · intro agree
    refine ⟨fun k outside => ?_, ?_, fun k less => ?_⟩
    · rw [out, Function.update_of_ne (by omega), BoundedBuffer.puts_outside outside]
    · rw [out, Function.update_self]
    · rw [byte less, agree k (lt_min_iff.mp less).2]

/-- A text whose positions wrap. -/
theorem renders_long (positive : 0 < n) (bounded : n < 2 ^ 32) (noChar : NoChar args str fmt)
    (long : 2 ^ 32 ≤ (Rendering.reference args str fmt.bytes).text.length) (buf : Nat → UInt8) :
    Renders args str n buf fmt ↔ LastLap args str n fmt := by
  have out := noChar.out positive buf
  have whole : min (Rendering.reference args str fmt.bytes).text.length (n - 1) = n - 1 :=
    min_eq_right (by omega)
  have early (low : (Rendering.reference args str fmt.bytes).text.length % 2 ^ 32 < n - 1) :
      ¬ Renders args str n buf fmt := by
    intro renders
    have byte := renders.text _ (whole.symm ▸ low)
    rw [out, min_eq_left low.le, Function.update_self] at byte
    exact Rendering.reference_nonzero fmt.nonzero (List.mem_of_getElem? byte)
  rcases Nat.lt_or_ge ((Rendering.reference args str fmt.bytes).text.length % 2 ^ 32) (n - 1) with low | high
  · exact iff_of_false (early low) fun lap => absurd lap.1 (not_le.mpr low)
  rw [min_eq_right high] at out
  have byte {k : Nat} (less : k < n - 1) : some ((vsnprintf ⟨args, str, true, n⟩ buf fmt).out k) =
      (Rendering.of minimumText args str fmt.bytes).text[k +
        (Rendering.reference args str fmt.bytes).text.length / 2 ^ 32 * 2 ^ 32]? := by
    have laps : ((Rendering.reference args str fmt.bytes).text.length - 1 - k) / 2 ^ 32 =
        (Rendering.reference args str fmt.bytes).text.length / 2 ^ 32 := by omega
    rw [out, Function.update_of_ne (by omega), puts_printed bounded (by omega) (by omega), laps]
  constructor
  · intro renders
    refine ⟨high, fun k less => ?_⟩
    rw [← byte less, renders.text k (whole.symm ▸ less)]
  · intro lap
    refine ⟨fun k outside => ?_, ?_, fun k less => ?_⟩
    · rw [out, Function.update_of_ne (by omega), BoundedBuffer.puts_outside outside]
    · rw [whole, out, Function.update_self]
    · rw [whole] at less
      rw [byte less, lap.2 k less]

/-- When the buffer of a format without `%c` holds the reference text. -/
theorem renders_iff (positive : 0 < n) (bounded : n < 2 ^ 32) (noChar : NoChar args str fmt)
    (buf : Nat → UInt8) : Renders args str n buf fmt ↔
      ((Rendering.reference args str fmt.bytes).text.length < 2 ^ 32 ∧ MinimumBehind args str n fmt) ∨
      (2 ^ 32 ≤ (Rendering.reference args str fmt.bytes).text.length ∧ LastLap args str n fmt) := by
  rcases Nat.lt_or_ge (Rendering.reference args str fmt.bytes).text.length (2 ^ 32) with short | long
  · rw [renders_short positive bounded noChar short]
    exact ⟨fun behind => .inl ⟨short, behind⟩, fun either => either.elim And.right fun far => by omega⟩
  · rw [renders_long positive bounded noChar long]
    exact ⟨fun lap => .inr ⟨long, lap⟩, fun either => either.elim (fun near => by omega) And.right⟩

/-- `"n=%d"` for the number 42, in a buffer of four bytes. -/
theorem renders_four : Renders (fun _ => 42) (fun _ => CString.ofChars [] (CString.nonzero_of_all rfl)) 4
    (fun _ => 7) (CString.ofChars ['n', '=', '%', 'd'] (CString.nonzero_of_all rfl)) := by
  refine (renders_iff (by decide) (by decide) (.of_not_mem (by decide)) _).mpr (.inl ⟨by decide, ?_⟩)
  intro before after _ _ least
  have other : (42 : BitVec 32) ≠ BitVec.intMin 32 := by decide
  exact absurd least other

/-- `"%d"` for the minimum. -/
theorem renders_minimum : ¬ Renders (fun _ => BitVec.intMin 32)
    (fun _ => CString.ofChars [] (CString.nonzero_of_all rfl)) 20 (fun _ => 7)
    (CString.ofChars ['%', 'd'] (CString.nonzero_of_all rfl)) := by
  rw [renders_short (by decide) (by decide) (.of_not_mem (by decide)) (by decide)]
  intro behind
  exact absurd (behind ['%'.toUInt8] [] rfl (by decide) rfl) (by decide)

end PrintCall

end Riscv2os.MiniRiscvOs
