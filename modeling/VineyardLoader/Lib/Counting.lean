import Mathlib.Algebra.Order.BigOperators.Group.List
import VineyardLoader.Lib.Arrays

/-!
# What `vcbprintf` counts

Text, strings and characters are counted as they are printed, and of an integer only its digits
are (`Conversion.counted`). So `vcbprintf` returns how much it printed exactly when every
conversion prints nothing else (`Conversion.Plain`), or when what is counted alone is more than an
`int` holds (`vcbprintf_counts_iff`).
-/

set_option autoImplicit false

namespace VineyardLoader

/-! ## Integers -/

/-- How many digits a value has, where zero has one. -/
def digitCount (specifier : UInt8) (value : BitVec 64) : Nat :=
  Nat.log (integerBase specifier) value.toNat + 1

theorem bufLength_eq_digitCount (specifier : UInt8) (value : BitVec 64) :
    bufLength (integerBase specifier) value.toNat = digitCount specifier value :=
  bufLength_eq (one_lt_integerBase specifier) value.isLt

theorem digitCount_le (specifier : UInt8) (value : BitVec 64) :
    digitCount specifier value ≤ 64 := by
  have large := one_lt_integerBase specifier
  have room : value.toNat < integerBase specifier ^ 64 :=
    value.isLt.trans_le (Nat.pow_le_pow_left large 64)
  have short : Nat.log (integerBase specifier) value.toNat < 64 := by
    by_cases zero : value.toNat = 0
    · rw [zero, Nat.log_zero_right]
      omega
    · exact (Nat.log_lt_iff_lt_pow large zero).mpr room
  rw [digitCount]
  omega

theorem digitCount_lt (specifier : UInt8) (value : BitVec 64) :
    digitCount specifier value < 2 ^ 64 :=
  (digitCount_le specifier value).trans_lt (by decide)

theorem digitCount_eq_max (specifier : UInt8) (value : BitVec 64) :
    digitCount specifier value =
      max 1 (Nat.digits (integerBase specifier) value.toNat).length := by
  rw [digitCount]
  by_cases zero : value.toNat = 0
  · rw [zero, Nat.log_zero_right, Nat.digits_zero]
    rfl
  · rw [Nat.length_digits _ _ (one_lt_integerBase specifier) zero]
    omega

/-- How often an integer is padded: on both sides with the flag `-` and without the flag `0`. -/
def padSides (flags : Flags) : Nat := if flags.minus ∧ !flags.zero then 2 else 1

theorem padSides_pos (flags : Flags) : 0 < padSides flags := by
  unfold padSides
  split <;> decide

/-- The padding is what is missing. -/
theorem padLength_eq {width printed : Nat} (small : printed < 2 ^ 64) :
    padLength width printed = width - printed := by
  rw [padLength_eq_sub, Nat.mod_eq_of_lt small]

section Integers

variable (spec : Spec) (args : Nat) (specifier : UInt8) (value : BitVec 64) (negative : Bool)

theorem convertInteger_length :
    (convertInteger spec args specifier value negative).calls.flatten.length =
      padSides spec.flags * integerPad spec specifier value negative +
        (integerPrefix spec.flags negative specifier).length + integerPrinted spec specifier value := by
  rw [convertInteger_flatten, padSides]
  simp only [List.length_append, integerDigits_length]
  cases spec.flags.zero <;> cases spec.flags.minus <;> simp <;> omega

theorem integerPrefix_eq_nil_iff :
    integerPrefix spec.flags negative specifier = [] ↔
      ¬ Signed spec.flags negative ∧
      ¬ (spec.flags.hash = true ∧ (specifier = 0x78 ∨ specifier = 0x58 ∨ specifier = 0x6F)) := by
  rw [integerPrefix, List.append_eq_nil_iff]
  apply and_congr
  · rw [Signed]
    cases negative <;> cases spec.flags.plus <;> cases spec.flags.space <;> simp
  · by_cases hex : specifier = 0x78 ∨ specifier = 0x58
    · rcases hex with rfl | rfl <;> simp
    · rw [if_neg (fun both => hex both.2)]
      rw [not_or] at hex
      simp [hex.1, hex.2]

theorem integerPrinted_eq_iff :
    integerPrinted spec specifier value = digitCount specifier value ↔
      spec.precision = noPrecision ∨ spec.precision ≤ digitCount specifier value := by
  rw [integerPrinted, bufLength_eq_digitCount, printedWidth]
  split
  · rename_i longer
    omega
  · rename_i short
    rw [not_and] at short
    constructor
    · intro _
      by_cases none_ : spec.precision = noPrecision
      · exact .inl none_
      · exact .inr (Nat.le_of_not_lt (short none_))
    · intro _
      rfl

/-- **An integer prints nothing but its digits** exactly when it has no prefix, no zeros of the
precision, and is as wide as its digits. -/
theorem convertInteger_counted_iff :
    digitCount specifier value =
        (convertInteger spec args specifier value negative).calls.flatten.length ↔
      ¬ Signed spec.flags negative ∧
      ¬ (spec.flags.hash = true ∧ (specifier = 0x78 ∨ specifier = 0x58 ∨ specifier = 0x6F)) ∧
      (spec.precision = noPrecision ∨ spec.precision ≤ digitCount specifier value) ∧
      spec.width ≤ digitCount specifier value := by
  have printed := bufLength_le_integerPrinted spec specifier value
  rw [bufLength_eq_digitCount] at printed
  have sides := padSides_pos spec.flags
  have small := digitCount_lt specifier value
  rw [convertInteger_length, ← and_assoc, ← integerPrefix_eq_nil_iff, ← integerPrinted_eq_iff]
  constructor
  · intro same
    have noPad : integerPad spec specifier value negative = 0 := by
      by_contra some_
      have more := Nat.mul_pos sides (Nat.pos_of_ne_zero some_)
      omega
    rw [noPad, Nat.mul_zero, Nat.zero_add] at same
    have noPrefix : integerPrefix spec.flags negative specifier = [] :=
      List.eq_nil_of_length_eq_zero (by omega)
    rw [noPrefix, List.length_nil, Nat.zero_add] at same
    refine ⟨noPrefix, same.symm, ?_⟩
    rw [integerPad, noPrefix, List.length_nil, Nat.add_zero, ← same, padLength_eq small] at noPad
    omega
  · rintro ⟨noPrefix, same, narrow⟩
    have noPad : integerPad spec specifier value negative = 0 := by
      rw [integerPad, noPrefix, List.length_nil, Nat.add_zero, same, padLength_eq small]
      omega
    rw [noPad, noPrefix, same, Nat.mul_zero, List.length_nil, Nat.zero_add]

theorem digitCount_le_length :
    digitCount specifier value ≤
      (convertInteger spec args specifier value negative).calls.flatten.length := by
  have printed := bufLength_le_integerPrinted spec specifier value
  rw [bufLength_eq_digitCount] at printed
  rw [convertInteger_length]
  omega

end Integers

/-! ## Conversions -/

section Conversions

variable (arguments : Arguments) (conv : Conversion)

/-- How much of a conversion is counted: all of a string or a character, and the digits of an
integer. -/
def Conversion.counted : Nat :=
  if conv.specifier = 0x25 then 0
  else if conv.specifier = 0x73 then
    ((arguments.string (arguments.word conv.args)).bytes.take conv.spec.precision).length
  else if conv.specifier = 0x63 then 1
  else
    match integerValue (arguments.word conv.args) conv.spec.length conv.specifier with
    | some (value, _) => digitCount (printedAs conv.specifier) value
    | none => 0

/-- A conversion that prints nothing else: not a percent sign, and if it is an integer then one
that has no sign and no prefix, and no fewer digits than its precision and its width. -/
def Conversion.Plain : Prop :=
  conv.specifier ≠ 0x25 ∧
    (IsInteger conv.specifier → ∀ value negative,
      integerValue (arguments.word conv.args) conv.spec.length conv.specifier =
        some (value, negative) →
        ¬ Signed conv.spec.flags negative ∧
        ¬ (conv.spec.flags.hash = true ∧ (printedAs conv.specifier = 0x78 ∨
          printedAs conv.specifier = 0x58 ∨ printedAs conv.specifier = 0x6F)) ∧
        (conv.spec.precision = noPrecision ∨
          conv.spec.precision ≤ digitCount (printedAs conv.specifier) value) ∧
        conv.spec.width ≤ digitCount (printedAs conv.specifier) value)

variable {arguments conv}

theorem Conversion.plain_of_not_integer (single : conv.specifier ≠ 0x25)
    (other : ¬ IsInteger conv.specifier) : conv.Plain arguments :=
  ⟨single, fun integer => absurd integer other⟩

/-- Without flags, a width and a precision, a number that is not negative is its digits. -/
theorem Conversion.plain_of_bare {length : Length} {args : Nat} {c : UInt8} (single : c ≠ 0x25)
    (positive : ∀ value negative,
      integerValue (arguments.word args) length c = some (value, negative) → negative = false) :
    Conversion.Plain arguments ⟨⟨Flags.none, 0, noPrecision, length⟩, args, c⟩ := by
  refine ⟨single, fun _ value negative found => ⟨?_, ?_, .inl rfl, Nat.zero_le _⟩⟩
  · rw [positive value negative found]
    simp [Signed, Flags.none]
  · simp [Flags.none]

/-- What the switch counts, and when that is all that it prints. -/
theorem convert_counted {emission : Emission}
    (known : convert arguments conv.spec conv.args conv.specifier = some emission) :
    emission.written = conv.counted arguments ∧
      emission.written ≤ emission.calls.flatten.length ∧
      (emission.written = emission.calls.flatten.length ↔ conv.Plain arguments) := by
  rcases convert_cases known with ⟨c, rfl⟩ | ⟨c, text, rfl, rfl⟩ | ⟨c, byte, -, rfl⟩ |
      ⟨integer, value, negative, found, rfl⟩
  · refine ⟨?_, Nat.zero_le _, iff_of_false (by simp) ?_⟩
    · rw [Conversion.counted, if_pos c]
    · intro plain
      exact plain.1 c
  · refine ⟨?_, by simp, iff_of_true (by simp) (Conversion.plain_of_not_integer ?_ ?_)⟩
    · rw [Conversion.counted, c]
      rfl
    · rw [c]
      decide
    · rw [c]
      decide
  · refine ⟨?_, by simp, iff_of_true (by simp) (Conversion.plain_of_not_integer ?_ ?_)⟩
    · rw [Conversion.counted, c]
      rfl
    · rw [c]
      decide
    · rw [c]
      decide
  · rw [convertInteger_written, bufLength_eq_digitCount]
    refine ⟨?_, digitCount_le_length _ _ _ _ _, ?_⟩
    · rw [Conversion.counted, if_neg integer.ne_percent, if_neg integer.ne_string,
        if_neg integer.ne_character, found]
    · rw [convertInteger_counted_iff]
      constructor
      · intro holds
        refine ⟨integer.ne_percent, fun _ other otherNegative otherFound => ?_⟩
        rw [found, Option.some.injEq, Prod.mk.injEq] at otherFound
        rw [← otherFound.1, ← otherFound.2]
        exact holds
      · intro plain
        exact plain.2 integer value negative found

end Conversions

/-! ## Runs -/

/-- How much of a step is counted: all of a block of text, and what is counted of a
conversion. -/
def Step.counted (arguments : Arguments) (s : Step) : Nat :=
  match s.conversion with
  | some conv => conv.counted arguments
  | none => s.emission.calls.flatten.length

/-- How much of a format is counted. -/
def countedOf (arguments : Arguments) (format : CString) : Nat :=
  ((steps arguments 0 false format.bytes).map (Step.counted arguments)).sum

/-- Sums are equal exactly when what they sum is, where one is never more than the other. -/
theorem sum_eq_sum_iff {first second : Step → Nat} :
    ∀ {taken : List Step}, (∀ s ∈ taken, first s ≤ second s) →
      ((taken.map first).sum = (taken.map second).sum ↔ ∀ s ∈ taken, first s = second s) := by
  intro taken
  induction taken with
  | nil =>
      intro _
      simp
  | cons s taken ih =>
      intro below
      have here := below s List.mem_cons_self
      have later := fun other member => below other (List.mem_cons_of_mem s member)
      have rest := List.sum_le_sum later
      rw [List.map_cons, List.map_cons, List.sum_cons, List.sum_cons, List.forall_mem_cons,
        ← ih later]
      omega

theorem printedCalls_length (taken : List Step) :
    (printedCalls taken).flatten.length = (taken.map fun s => s.emission.calls.flatten.length).sum := by
  induction taken with
  | nil => rfl
  | cons s taken ih =>
      rw [List.map_cons, List.sum_cons, ← ih]
      simp [printedCalls]

section Runs

variable {arguments : Arguments} {args : Nat} {bad : Bool} {rest : List UInt8}

theorem steps_counted_le : ∀ s ∈ steps arguments args bad rest,
    s.emission.written ≤ s.emission.calls.flatten.length := by
  intro s member
  obtain ⟨otherArgs, otherBad, otherRest, rfl⟩ := exists_step_of_mem member
  rcases step_cases arguments otherArgs otherBad otherRest with
    ⟨conv, -, known⟩ | ⟨-, block, next, text⟩
  · exact (convert_counted known).2.1
  · rw [text]
    simp [textEmission]

theorem countedLength_steps :
    countedLength (steps arguments args bad rest) =
      ((steps arguments args bad rest).map (Step.counted arguments)).sum := by
  rw [countedLength]
  congr 1
  apply List.map_congr_left
  intro s member
  obtain ⟨otherArgs, otherBad, otherRest, rfl⟩ := exists_step_of_mem member
  rw [Step.counted]
  rcases step_cases arguments otherArgs otherBad otherRest with
    ⟨conv, named, known⟩ | ⟨none_, block, next, text⟩
  · rw [named]
    exact (convert_counted known).1
  · rw [none_, text]
    simp [textEmission]

/-- All that is printed is counted exactly when every conversion is plain. -/
theorem countedLength_eq_iff :
    countedLength (steps arguments args bad rest) =
        (printedCalls (steps arguments args bad rest)).flatten.length ↔
      ∀ conv ∈ (steps arguments args bad rest).filterMap Step.conversion,
        conv.Plain arguments := by
  rw [printedCalls_length, countedLength, sum_eq_sum_iff steps_counted_le]
  apply forall_steps_iff
  · intro s block next text
    rw [text]
    simp [textEmission]
  · intro s conv known
    exact (convert_counted known).2.2

theorem countedLength_le :
    countedLength (steps arguments args bad rest) ≤
      (printedCalls (steps arguments args bad rest)).flatten.length := by
  rw [printedCalls_length, countedLength]
  exact List.sum_le_sum steps_counted_le

end Runs

/-- When the number that is returned is the length of what was printed. -/
theorem returned_iff {counted total : Nat} (below : counted ≤ total) :
    ((if counted % 2 ^ 64 > intMax then -1 else ((counted % 2 ^ 64 : Nat) : Int)) =
        if total ≤ intMax then (total : Int) else -1) ↔
      (counted ≤ intMax ∧ counted = total) ∨ intMax < counted % 2 ^ 64 := by
  rw [intMax]
  split_ifs
  · omega
  · omega
  · omega
  · rw [false_iff]
    omega

/-- **When `vcbprintf` returns how much it printed.** For every format, every argument list and
every callback that takes all bytes, a run stays inside its arrays and returns the number of bytes
printed, or -1 if that is more than an `int` holds, exactly when no conversion overruns an array,
and either every conversion is plain and the bytes that are counted fit an `int`, or these are too
many on their own. -/
theorem vcbprintf_counts_iff (callback : Option Callback)
    (takesAll : TakesAll (callback.getD callbackPlaceholder)) (format : CString)
    (arguments : Arguments) :
    (∃ result final, vcbprintf callback (some format) arguments = some (result, final) ∧
      final.Inside ∧
      result = if final.calls.flatten.length ≤ intMax then (final.calls.flatten.length : Int)
        else -1) ↔
      (∀ conv ∈ conversions arguments format, ¬ conv.Overruns arguments) ∧
      ((countedOf arguments format ≤ intMax ∧
          ∀ conv ∈ conversions arguments format, conv.Plain arguments) ∨
        intMax < countedOf arguments format % 2 ^ 64) := by
  obtain ⟨result, final, run, printed, value⟩ := vcbprintf_takesAll callback takesAll format arguments
  have calls : final.calls = printedCalls (steps arguments 0 false format.bytes) := printed.calls
  have written : final.written = countedLength (steps arguments 0 false format.bytes) % 2 ^ 64 := by
    rw [printed.written]
    simp [PrintState.start]
  have only : (∃ result final, vcbprintf callback (some format) arguments = some (result, final) ∧
      final.Inside ∧
      result = if final.calls.flatten.length ≤ intMax then (final.calls.flatten.length : Int)
        else -1) ↔ final.Inside ∧
      result = if final.calls.flatten.length ≤ intMax then (final.calls.flatten.length : Int)
        else -1 := by
    simp only [run, Option.some.injEq, Prod.mk.injEq, and_assoc, exists_and_left, exists_eq_left']
  rw [only, printed.toTook.inside_iff, steps_inside_iff, value, calls, written,
    returned_iff countedLength_le, countedLength_eq_iff, countedLength_steps]
  exact Iff.rfl

/-- The format `%d%x` prints 255 as `255ff`, and 5 is returned. -/
theorem vcbprintf_counts_text :
    ∃ result final, vcbprintf none (some (.ofBytes [0x25, 0x64, 0x25, 0x78] (by decide)))
        (.constant 255) = some (result, final) ∧ final.Inside ∧
      result = if final.calls.flatten.length ≤ intMax then (final.calls.flatten.length : Int)
        else -1 := by
  apply (vcbprintf_counts_iff none callbackPlaceholder_takesAll _ _).mpr
  have second : step (.constant 255) 1 false [0x25, 0x78] =
      ⟨⟨[[], [0x66, 0x66]], 2, 2, [0], [1, 0, 2]⟩, [], false,
        some ⟨⟨Flags.none, 0, noPrecision, .default⟩, 1, 0x78⟩⟩ := rfl
  have first : step (.constant 255) 0 false [0x25, 0x64, 0x25, 0x78] =
      ⟨⟨[[], [0x32, 0x35, 0x35]], 1, 3, [0], [2, 1, 0, 3]⟩, [0x25, 0x78], false,
        some ⟨⟨Flags.none, 0, noPrecision, .default⟩, 0, 0x64⟩⟩ := rfl
  have taken : steps (.constant 255) 0 false
      (CString.ofBytes [0x25, 0x64, 0x25, 0x78] (by decide)).bytes =
        [step (.constant 255) 0 false [0x25, 0x64, 0x25, 0x78],
          step (.constant 255) 1 false [0x25, 0x78]] := by
    show steps (.constant 255) 0 false [0x25, 0x64, 0x25, 0x78] = _
    rw [steps, first, steps, second, steps]
  have decimal : integerValue 255 .default 0x64 = some (255, false) := rfl
  have hexadecimal : integerValue 255 .default 0x78 = some (255, false) := rfl
  rw [conversions, countedOf, taken, first, second]
  simp only [List.filterMap_cons, List.filterMap_nil, List.forall_mem_cons, List.not_mem_nil,
    false_imp_iff, implies_true, and_true]
  refine ⟨⟨by simp [Conversion.Overruns, Flags.none], by simp [Conversion.Overruns, Flags.none]⟩,
    .inl ⟨by decide +kernel, ?_, ?_⟩⟩
  · refine Conversion.plain_of_bare (by decide) fun value negative found => ?_
    cases decimal.symm.trans found
    rfl
  · refine Conversion.plain_of_bare (by decide) fun value negative found => ?_
    cases hexadecimal.symm.trans found
    rfl

/-- `%5d` prints five bytes and returns 1. -/
theorem vcbprintf_miscount :
    ∃ final, vcbprintf none (some (.ofBytes [0x25, 0x35, 0x64] (by decide))) (.constant 7) =
      some (1, final) ∧ final.calls.flatten.length = 5 := by
  have run : (vcbprintf none (some (.ofBytes [0x25, 0x35, 0x64] (by decide))) (.constant 7)).map
      (fun run => (run.1, run.2.calls.flatten.length)) = some (1, 5) := by
    decide +kernel
  obtain ⟨⟨result, final⟩, ran, same⟩ := Option.map_eq_some_iff.mp run
  rw [Prod.mk.injEq] at same
  exact ⟨final, ran.trans (by rw [← same.1]), same.2⟩

end VineyardLoader
