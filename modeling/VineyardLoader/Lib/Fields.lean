import VineyardLoader.Lib.Counting
import VineyardLoader.Lib.Grammar

/-!
# The width of a conversion

A text in a field is filled on one side (`filled`). A string and a character are never filled, and
an integer with the flag `-` but not the flag `0` is filled on both sides. So a conversion is
printed in its field exactly when it is wide enough already, or an integer without these flags
(`turn_width_iff`).
-/

set_option autoImplicit false

namespace VineyardLoader

/-! ## Fields -/

/-- A text in a field of some width. With the flag `-` it is filled after the text, with the flag
`0` by zeros between its front and its body, and else before the text. -/
def filled (flags : Flags) (width : Nat) (front body : List UInt8) : List UInt8 :=
  let missing := width - (front ++ body).length
  if flags.minus then front ++ body ++ List.replicate missing 0x20
  else if flags.zero then front ++ List.replicate missing 0x30 ++ body
  else List.replicate missing 0x20 ++ (front ++ body)

section Fields

variable {flags : Flags} {width : Nat} {front body : List UInt8}

theorem filled_length :
    (filled flags width front body).length = max width (front ++ body).length := by
  rw [filled]
  split
  · simp only [List.length_append, List.length_replicate]
    omega
  · split
    · simp only [List.length_append, List.length_replicate]
      omega
    · simp only [List.length_append, List.length_replicate]
      omega

/-- A text that is wide enough is not filled. -/
theorem filled_of_le (wide : width ≤ (front ++ body).length) :
    filled flags width front body = front ++ body := by
  rw [filled, Nat.sub_eq_zero_of_le wide]
  simp

/-- A text that is filled once is in its field. -/
theorem filled_of_missing {pad : Nat} (missing : pad = width - (front ++ body).length)
    (once : padSides flags = 1 ∨ pad = 0) :
    (if flags.zero then [] else List.replicate pad 0x20) ++ front ++
        (if flags.zero ∧ !flags.minus then List.replicate pad 0x30 else []) ++ body ++
        (if flags.minus then List.replicate pad 0x20 else []) =
      filled flags width front body := by
  rw [filled, ← missing]
  rcases once with one | rfl
  · rw [padSides] at one
    cases minus : flags.minus <;> cases zero : flags.zero <;> simp_all
  · simp

end Fields

/-- When what is missing is filled on one side or on two. -/
theorem missing_iff {sides : Nat} (few : sides = 1 ∨ sides = 2) (width length : Nat) :
    sides * (width % 2 ^ 64 - length % 2 ^ 64) + length = max width length ↔
      (width ≤ length ∧ width % 2 ^ 64 ≤ length % 2 ^ 64) ∨
      (length < width ∧ sides = 1 ∧ width / 2 ^ 64 = length / 2 ^ 64) := by
  rcases few with rfl | rfl
  · omega
  · omega

/-! ## Conversions -/

/-- The same with the width zero. -/
def Spec.withoutWidth (spec : Spec) : Spec := ⟨spec.flags, 0, spec.precision, spec.length⟩

section Conversions

variable (arguments : Arguments) (conv : Conversion)

/-- The sign and the prefix of an integer. -/
def Conversion.front : List UInt8 :=
  if IsInteger conv.specifier then
    match integerValue (arguments.word conv.args) conv.spec.length conv.specifier with
    | some (_, negative) => integerPrefix conv.spec.flags negative (printedAs conv.specifier)
    | none => []
  else []

/-- How long a conversion is without a width: the string up to the precision, the one character,
or the prefix and the digits of the integer. -/
def Conversion.bareLength : Nat :=
  if conv.specifier = 0x73 then
    ((arguments.string (arguments.word conv.args)).bytes.take conv.spec.precision).length
  else if conv.specifier = 0x63 then 1
  else
    match integerValue (arguments.word conv.args) conv.spec.length conv.specifier with
    | some (value, negative) =>
        (integerPrefix conv.spec.flags negative (printedAs conv.specifier)).length +
          integerPrinted conv.spec (printedAs conv.specifier) value
    | none => 0

/-- What a conversion prints is what it prints with the width zero, in a field of some width. -/
def Conversion.InField (width : Nat) (emission : Emission) : Prop :=
  ∃ bare body,
    convert arguments conv.spec.withoutWidth conv.args conv.specifier = some bare ∧
    bare.calls.flatten = conv.front arguments ++ body ∧
    emission.calls.flatten.length = max width bare.calls.flatten.length ∧
    emission.calls.flatten = filled conv.spec.flags width (conv.front arguments) body

/-- When a field has its width: it is short enough for the text, or an integer is filled on one
side. Sizes count modulo 2^64. -/
def Conversion.Fills (width : Nat) : Prop :=
  (width ≤ conv.bareLength arguments ∧
    width % 2 ^ 64 ≤ conv.bareLength arguments % 2 ^ 64) ∨
  (conv.bareLength arguments < width ∧
    (IsInteger conv.specifier ∧ padSides conv.spec.flags = 1) ∧
    width / 2 ^ 64 = conv.bareLength arguments / 2 ^ 64)

variable {arguments conv}

theorem convert_withoutWidth_of_not_integer {spec : Spec} {args : Nat} {c : UInt8}
    (other : ¬ IsInteger c) :
    convert arguments spec.withoutWidth args c = convert arguments spec args c := by
  rw [convert, convert, if_neg other, if_neg other]
  rfl

/-- A string or a character is as long as it is without a width. -/
theorem inField_iff_of_not_integer {width : Nat} {emission : Emission}
    (known : convert arguments conv.spec conv.args conv.specifier = some emission)
    (other : ¬ IsInteger conv.specifier) :
    conv.InField arguments width emission ↔ width ≤ emission.calls.flatten.length := by
  have front : conv.front arguments = [] := if_neg other
  rw [Conversion.InField, convert_withoutWidth_of_not_integer other, known, front]
  constructor
  · rintro ⟨bare, body, same, rfl, length, -⟩
    cases same
    omega
  · intro wide
    have whole : filled conv.spec.flags width [] emission.calls.flatten = emission.calls.flatten :=
      filled_of_le (by rwa [List.nil_append])
    exact ⟨emission, _, rfl, rfl, (Nat.max_eq_right wide).symm, whole.symm⟩

theorem fills_iff_of_not_integer {width : Nat} (other : ¬ IsInteger conv.specifier)
    (small : conv.bareLength arguments < 2 ^ 64) :
    conv.Fills arguments width ↔ width ≤ conv.bareLength arguments := by
  rw [Conversion.Fills]
  constructor
  · rintro (⟨wide, -⟩ | ⟨-, ⟨integer, -⟩, -⟩)
    · exact wide
    · exact absurd integer other
  · intro wide
    left
    omega

section Integers

variable {width args : Nat} {value : BitVec 64} {negative : Bool}

theorem front_of_integer (integer : IsInteger conv.specifier)
    (found : integerValue (arguments.word conv.args) conv.spec.length conv.specifier =
      some (value, negative)) :
    conv.front arguments = integerPrefix conv.spec.flags negative (printedAs conv.specifier) := by
  rw [Conversion.front, if_pos integer, found]

theorem bareLength_of_integer (integer : IsInteger conv.specifier)
    (found : integerValue (arguments.word conv.args) conv.spec.length conv.specifier =
      some (value, negative)) :
    conv.bareLength arguments = (conv.front arguments ++
      integerDigits conv.spec (printedAs conv.specifier) value).length := by
  rw [Conversion.bareLength, if_neg integer.ne_string, if_neg integer.ne_character, found,
    List.length_append, integerDigits_length, front_of_integer integer found]

/-- What an integer prints without a width. -/
theorem convert_withoutWidth_of_integer (integer : IsInteger conv.specifier)
    (found : integerValue (arguments.word conv.args) conv.spec.length conv.specifier =
      some (value, negative)) :
    ∃ bare, convert arguments conv.spec.withoutWidth conv.args conv.specifier = some bare ∧
      bare.calls.flatten =
        conv.front arguments ++ integerDigits conv.spec (printedAs conv.specifier) value := by
  have length : conv.spec.withoutWidth.length = conv.spec.length := rfl
  have narrow : conv.spec.withoutWidth.width = 0 := rfl
  rw [convert_integer arguments conv.spec.withoutWidth conv.args integer, length, found]
  refine ⟨_, rfl, ?_⟩
  rw [convertInteger_bare _ _ _ _ narrow, front_of_integer integer found]
  rfl

theorem integerPad_of_read (read : conv.spec.width = width % 2 ^ 64)
    (integer : IsInteger conv.specifier)
    (found : integerValue (arguments.word conv.args) conv.spec.length conv.specifier =
      some (value, negative)) :
    integerPad conv.spec (printedAs conv.specifier) value negative =
      width % 2 ^ 64 - conv.bareLength arguments % 2 ^ 64 := by
  rw [integerPad, padLength_eq_sub, read, bareLength_of_integer integer found, List.length_append,
    integerDigits_length, front_of_integer integer found, Nat.add_comm]

/-- An integer is filled as its flags say. -/
theorem inField_iff_of_integer (integer : IsInteger conv.specifier)
    (read : conv.spec.width = width % 2 ^ 64)
    (found : integerValue (arguments.word conv.args) conv.spec.length conv.specifier =
      some (value, negative)) :
    conv.InField arguments width
        (convertInteger conv.spec args (printedAs conv.specifier) value negative) ↔
      conv.Fills arguments width := by
  have front := front_of_integer integer found
  have length := bareLength_of_integer integer found
  have pad := integerPad_of_read read integer found
  obtain ⟨bare, known, printed⟩ := convert_withoutWidth_of_integer integer found
  have sides : padSides conv.spec.flags = 1 ∨ padSides conv.spec.flags = 2 := by
    rw [padSides]
    split
    · exact .inr rfl
    · exact .inl rfl
  have fills := missing_iff sides width (conv.bareLength arguments)
  have emitted := convertInteger_length conv.spec args (printedAs conv.specifier) value negative
  rw [pad, Nat.add_assoc, ← front, ← integerDigits_length conv.spec, ← List.length_append,
    ← length] at emitted
  rw [Conversion.InField, known]
  constructor
  · rintro ⟨_, body, same, -, wide, -⟩
    cases same
    rw [emitted, printed, ← length] at wide
    rcases fills.mp wide with short | ⟨long, one, same⟩
    · exact .inl short
    · exact .inr ⟨long, ⟨integer, one⟩, same⟩
  · intro holds
    have wide : (width ≤ conv.bareLength arguments ∧
          width % 2 ^ 64 ≤ conv.bareLength arguments % 2 ^ 64) ∨
        (conv.bareLength arguments < width ∧ padSides conv.spec.flags = 1 ∧
          width / 2 ^ 64 = conv.bareLength arguments / 2 ^ 64) := by
      rcases holds with short | ⟨long, ⟨-, one⟩, same⟩
      · exact .inl short
      · exact .inr ⟨long, one, same⟩
    have field : (convertInteger conv.spec args (printedAs conv.specifier) value
          negative).calls.flatten =
        filled conv.spec.flags width (conv.front arguments)
          (integerDigits conv.spec (printedAs conv.specifier) value) := by
      rw [convertInteger_flatten, pad, ← front]
      apply filled_of_missing
      · rw [← length]
        omega
      · rcases wide with ⟨-, short⟩ | ⟨-, one, -⟩
        · exact .inr (Nat.sub_eq_zero_of_le short)
        · exact .inl one
    refine ⟨bare, _, rfl, printed, ?_, field⟩
    rw [field, filled_length, printed]

end Integers

/-- **When a conversion is printed in its field.** -/
theorem convert_inField_iff {width : Nat} {emission : Emission}
    (known : convert arguments conv.spec conv.args conv.specifier = some emission)
    (single : conv.specifier ≠ 0x25) (read : conv.spec.width = width % 2 ^ 64) :
    conv.InField arguments width emission ↔ conv.Fills arguments width := by
  rcases convert_cases known with ⟨percent, -⟩ | ⟨string, text, made, same⟩ |
      ⟨character, byte, -, same⟩ | ⟨integer, value, negative, found, rfl⟩
  · exact absurd percent single
  · have other : ¬ IsInteger conv.specifier := by
      rw [string]
      decide
    have length : conv.bareLength arguments = emission.calls.flatten.length := by
      rw [Conversion.bareLength, if_pos string, same, made]
      simp
    have small : conv.bareLength arguments < 2 ^ 64 := by
      rw [Conversion.bareLength, if_pos string]
      exact (List.length_take_le' _ _).trans_lt (CString.small _)
    rw [inField_iff_of_not_integer known other, fills_iff_of_not_integer other small, length]
  · have other : ¬ IsInteger conv.specifier := by
      rw [character]
      decide
    have length : conv.bareLength arguments = 1 := by
      rw [Conversion.bareLength, character]
      rfl
    rw [inField_iff_of_not_integer known other,
      fills_iff_of_not_integer other (by rw [length]; decide), length, same]
    rfl
  · exact inField_iff_of_integer integer read found

end Conversions

/-! ## Written widths -/

/-- The width as it is written: the argument of `*`, or the number of its digits. -/
def ConversionText.width (text : ConversionText) (arguments : Arguments) (args : Nat) : Nat :=
  if text.star then ((arguments.word args).setWidth 32).toNat else decimal text.digits

/-- The argument of `*` is not negative. -/
def ConversionText.NonNegative (text : ConversionText) (arguments : Arguments) (args : Nat) :
    Prop := text.star = true → ((arguments.word args).setWidth 32).msb = false

/-- A width is read modulo 2^64. -/
theorem ConversionText.readWidth_eq {text : ConversionText} {arguments : Arguments} {args : Nat}
    (nonNegative : text.NonNegative arguments args) :
    text.readWidth arguments args = text.width arguments args % 2 ^ 64 := by
  rw [ConversionText.readWidth, ConversionText.width]
  by_cases star : text.star
  · have small := ((arguments.word args).setWidth 32).isLt
    rw [if_pos star, if_pos star, sizeOfInt,
      BitVec.signExtend_eq_setWidth_of_msb_false (nonNegative star),
      BitVec.toNat_setWidth_of_le (by decide), Nat.mod_eq_of_lt (by omega)]
  · rw [if_neg star, if_neg star]

/-- **When a conversion has its width.** For every format, at every place where a conversion is
written: the turn writes inside the arrays and prints what the conversion prints with the width
zero, in a field of the width, exactly when the conversion does not overrun an array, and it is
as long as its width already or an integer that is filled on one side. -/
theorem turn_width_iff {format : CString} {arguments : Arguments} {cursor args : Nat}
    {text : ConversionText} {c : UInt8} {rest : List UInt8}
    (here : format.At cursor (0x25 :: (text.bytes ++ c :: rest)))
    (supported : Supported text.length c) (single : c ≠ 0x25)
    (nonNegative : text.NonNegative arguments args) :
    (∃ t, turn format arguments cursor args false = some t ∧ t.emission.Inside ∧
      (text.conversion arguments args c).InField arguments (text.width arguments args)
        t.emission) ↔
      ¬ (text.conversion arguments args c).Overruns arguments ∧
        (text.conversion arguments args c).Fills arguments (text.width arguments args) := by
  obtain ⟨t, run, known⟩ := turn_conversion arguments args here supported single
  rw [← convert_inside_iff known,
    ← convert_inField_iff known single (ConversionText.readWidth_eq nonNegative), run]
  simp only [Option.some.injEq, exists_eq_left']

/-- A width of 5, and nothing else. -/
def ConversionText.fiveWide : ConversionText :=
  { ConversionText.plain with
    digits := [0x35]
    isWidth := ⟨by rintro _ ⟨⟩; decide, List.forall_mem_singleton.mpr (by decide)⟩ }

/-- The conversion `%5d` of 7 has its width. -/
theorem turn_width_sample :
    ∃ t, turn (.ofBytes [0x25, 0x35, 0x64] (by decide)) (.constant 7) 0 0 false = some t ∧
      t.emission.Inside ∧
      (ConversionText.fiveWide.conversion (.constant 7) 0 0x64).InField (.constant 7) 5
        t.emission := by
  apply (@turn_width_iff (.ofBytes [0x25, 0x35, 0x64] (by decide)) (.constant 7) 0 0
    ConversionText.fiveWide 0x64 [] (CString.At.zero _) (by decide) (by decide) (by rintro ⟨⟩)).mpr
  constructor
  · rintro (⟨hash, -⟩ | ⟨octal, -⟩)
    · exact absurd hash (by decide)
    · exact absurd octal (by decide)
  · exact .inr ⟨by decide +kernel, ⟨by decide, by decide⟩, by decide +kernel⟩

/-- The conversion `%5s` of the empty string prints nothing, and `%-5d` of 7 prints nine bytes,
where `%-d` prints one. -/
theorem turn_width_missed :
    (turn (.ofBytes [0x25, 0x35, 0x73] (by decide)) (.constant 0) 0 0 false).map
      (fun t => t.emission.calls.flatten.length) = some 0 ∧
    (turn (.ofBytes [0x25, 0x2D, 0x35, 0x64] (by decide)) (.constant 7) 0 0 false).map
      (fun t => t.emission.calls.flatten.length) = some 9 ∧
    (turn (.ofBytes [0x25, 0x2D, 0x64] (by decide)) (.constant 7) 0 0 false).map
      (fun t => t.emission.calls.flatten.length) = some 1 := by
  decide +kernel

end VineyardLoader
