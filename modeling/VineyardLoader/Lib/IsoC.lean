import VineyardLoader.Lib.Counting
import VineyardLoader.Lib.Unknown

/-!
# Integers as ISO C prints them

`isoInteger` is what ISO C prints for an integer without a width: the sign of a signed conversion,
the prefix of the flag `#`, and the digits of the precision (`isoInteger`). What `vcbprintf`
prints has the same two parts, a sign and a body. The signs and the bodies are compared one by one
(`sign_append_eq_iff`, `body_eq_iff`), which says exactly when the whole is the same
(`convert_iso_iff`). A precision that is `*` is one of ISO C, and none that `vcbprintf` knows
(`turn_star_text`), so that the conversion is printed as it is written (`turn_iso_iff`).
-/

set_option autoImplicit false

namespace VineyardLoader

/-! ## ISO C -/

/-- The bits of the type of a length modifier on the target, where `long` has 32 bits. -/
def isoBits : Length → Option Nat
  | .shortShort => some 8
  | .short => some 16
  | .default => some 32
  | .long => some 32
  | .longLong => some 64
  | .longDouble => none
  | .intmaxT => some 64
  | .sizeT => some 64
  | .ptrdiffT => some 64

/-- A specifier of signed integers. -/
def IsSigned (c : UInt8) : Prop := c = 0x64 ∨ c = 0x69

instance : DecidablePred IsSigned := fun _ => inferInstanceAs (Decidable (_ ∨ _))

/-- The low bits of an argument as an integer of the type of a specifier. -/
def valueOf (c : UInt8) (word : BitVec 64) (bits : Nat) : Int :=
  if IsSigned c then (word.setWidth bits).toInt else (word.setWidth bits).toNat

/-- The symbol of a digit. -/
def isoSymbol (c : UInt8) (digit : Nat) : UInt8 :=
  if digit < 10 then 0x30 + UInt8.ofNat digit
  else (if c = 0x58 then 0x41 else 0x61) + UInt8.ofNat (digit - 10)

def isoBase (c : UInt8) : Nat := if c = 0x6F then 8 else if c = 0x78 ∨ c = 0x58 then 16 else 10

/-- The digits of a number, and no fewer than a minimum. -/
def isoDigits (c : UInt8) (minimum number : Nat) : List UInt8 :=
  numeral (isoSymbol c) (isoBase c) (minimum - (Nat.digits (isoBase c) number).length) number

/-- The sign of a signed conversion. -/
def isoSign (flags : Flags) (c : UInt8) (value : Int) : List UInt8 :=
  if IsSigned c then
    if value < 0 then [0x2D] else if flags.plus then [0x2B] else if flags.space then [0x20] else []
  else []

/-- What stands after the sign. With the flag `#` a hexadecimal number that is not zero has a
prefix, and an octal number has one more digit if its first is not a zero. -/
def isoBody (flags : Flags) (precision : Option Nat) (c : UInt8) (number : Nat) : List UInt8 :=
  if flags.hash ∧ c = 0x6F then
    isoDigits c (max (precision.getD 1) ((Nat.digits 8 number).length + 1)) number
  else if flags.hash ∧ (c = 0x78 ∨ c = 0x58) ∧ number ≠ 0 then
    [0x30, c] ++ isoDigits c (precision.getD 1) number
  else isoDigits c (precision.getD 1) number

/-- What ISO C prints for an integer without a width. -/
def isoInteger (flags : Flags) (precision : Option Nat) (length : Length) (c : UInt8)
    (word : BitVec 64) : Option (List UInt8) :=
  (isoBits length).map fun bits =>
    isoSign flags c (valueOf c word bits) ++
      isoBody flags precision c (valueOf c word bits).natAbs

/-! ## Values -/

/-- The value that the switch takes from an argument is the one of its type, as a sign and a
number. -/
theorem integerValue_eq {word value : BitVec 64} {length : Length} {c : UInt8} {negative : Bool}
    {bits : Nat} (size : vaBits length = some bits) (notPointer : c ≠ 0x70)
    (found : integerValue word length c = some (value, negative)) :
    (negative = true ↔ valueOf c word bits < 0) ∧ value.toNat = (valueOf c word bits).natAbs := by
  have bound := vaBits_le size
  rw [integerValue, if_neg notPointer] at found
  by_cases signed : c = 0x69 ∨ c = 0x64
  · have extended : ((word.setWidth bits).signExtend 64).toInt = (word.setWidth bits).toInt :=
      BitVec.toInt_signExtend_of_le bound
    have small := ((word.setWidth bits).signExtend 64).isLt
    rw [valueOf, if_pos (show IsSigned c from signed.symm), ← extended]
    simp only [size, if_pos signed, Option.some.injEq, Prod.mk.injEq] at found
    generalize (word.setWidth bits).signExtend 64 = whole at found small ⊢
    obtain ⟨rfl, rfl⟩ := found
    have cases := BitVec.toInt_eq_msb_cond whole
    cases msb : whole.msb with
    | true =>
        rw [msb, if_pos rfl] at cases
        refine ⟨iff_of_true rfl (by omega), ?_⟩
        rw [if_pos rfl, BitVec.toNat_neg]
        have large := BitVec.msb_eq_decide whole
        rw [msb] at large
        have large := of_decide_eq_true large.symm
        omega
    | false =>
        rw [msb, if_neg Bool.false_ne_true] at cases
        refine ⟨iff_of_false Bool.false_ne_true (by omega), ?_⟩
        rw [if_neg Bool.false_ne_true]
        omega
  · obtain ⟨rfl, other, otherSize, rfl⟩ := integerValue_unsigned signed notPointer (by
      rw [integerValue, if_neg notPointer]
      exact found)
    rw [size, Option.some.injEq] at otherSize
    subst otherSize
    have unsigned : ¬ IsSigned c := fun held => signed held.symm
    rw [valueOf, if_neg unsigned, setWidth_setWidth_toNat word bound]
    exact ⟨iff_of_false Bool.false_ne_true (by omega), (Int.natAbs_natCast _).symm⟩

/-! ## Numerals -/

theorem isoSymbol_eq (c : UInt8) : ∀ digit < 16, isoSymbol c digit = digitByte c digit := by
  unfold isoSymbol digitByte convDigits
  by_cases upper : c = 0x58
  · simp only [if_pos upper]
    decide
  · simp only [if_neg upper]
    decide

theorem isoBase_eq (c : UInt8) : isoBase c = integerBase c := by
  rw [isoBase, integerBase]
  by_cases octal : c = 0x6F
  · subst octal
    rfl
  · rw [if_neg octal, if_neg octal]
    simp only [or_comm]

theorem isoDigits_eq (c : UInt8) (minimum number : Nat) :
    isoDigits c minimum number = numeral (digitByte c) (integerBase c)
      (minimum - (Nat.digits (integerBase c) number).length) number := by
  rw [isoDigits, isoBase_eq]
  apply numeral_congr (one_lt_integerBase c)
  intro digit below
  apply isoSymbol_eq
  rcases integerBase_cases c with base | base | base <;> omega

/-- No byte of a numeral is smaller than the digit zero. -/
theorem le_of_mem_numeral {c byte : UInt8} {zeros number : Nat}
    (member : byte ∈ numeral (digitByte c) (integerBase c) zeros number) : 0x30 ≤ byte := by
  have high : ∀ digit < 16, 0x30 ≤ digitByte c digit := by
    unfold digitByte convDigits
    split <;> decide
  obtain ⟨digit, place, rfl⟩ := List.mem_map.mp member
  have below := numeral_digit_lt (one_lt_integerBase c) place
  apply high
  rcases integerBase_cases c with base | base | base <;> omega

/-! ## Precisions -/

/-- The precision that is read. -/
def precisionOf : Option Nat → Nat
  | some digits => digits % 2 ^ 64
  | none => noPrecision

theorem ConversionText.readPrecision_eq (text : ConversionText) :
    text.readPrecision = precisionOf (text.precision.map decimal) := by
  rw [ConversionText.readPrecision]
  cases text.precision <;> rfl

theorem printedWidth_none (digits : Nat) : printedWidth (precisionOf none) digits = digits := by
  simp [printedWidth, precisionOf]

theorem printedWidth_some (least digits : Nat) :
    printedWidth (precisionOf (some least)) digits =
      if least % 2 ^ 64 = 2 ^ 64 - 1 then digits else max (least % 2 ^ 64) digits := by
  have read : precisionOf (some least) = least % 2 ^ 64 := rfl
  have none_ : noPrecision = 2 ^ 64 - 1 := rfl
  rw [printedWidth, read, none_]
  split_ifs <;> omega

/-- When as many digits are printed as the precision says. -/
theorem printedWidth_eq_iff (precision : Option Nat) {digits : Nat} (few : digits ≤ 64) :
    printedWidth (precisionOf precision) (max 1 digits) = max (precision.getD 1) digits ↔
      (∀ least ∈ precision, least < 2 ^ 64 - 1) ∧ ¬ (precision = some 0 ∧ digits = 0) := by
  cases precision with
  | none => simp [printedWidth_none]
  | some least =>
      rw [printedWidth_some]
      simp only [Option.getD_some, Option.mem_def, Option.some.injEq, forall_eq']
      split <;> omega

/-- When one more digit is printed than the precision says. -/
theorem printedWidth_succ_eq_iff (precision : Option Nat) {digits : Nat} (few : digits ≤ 64) :
    printedWidth (precisionOf precision) (max 1 digits) + 1 =
        max (precision.getD 1) (digits + 1) ↔
      digits ≠ 0 ∧ ∀ least ∈ precision, least ≤ digits := by
  cases precision with
  | none =>
      rw [printedWidth_none]
      simp
      omega
  | some least =>
      rw [printedWidth_some]
      simp only [Option.getD_some, Option.mem_def, Option.some.injEq, forall_eq']
      split <;> omega

/-! ## Signs -/

/-- The sign in the prefix. -/
def signBytes (flags : Flags) (negative : Bool) : List UInt8 :=
  if negative then [0x2D] else if flags.plus then [0x2B] else if flags.space then [0x20] else []

/-- What the flag `#` adds to the prefix. -/
def hashBytes (flags : Flags) (c : UInt8) : List UInt8 :=
  if flags.hash ∧ (c = 0x78 ∨ c = 0x58) then [0x30, c]
  else if flags.hash ∧ c = 0x6F then [0x30]
  else []

theorem integerPrefix_eq (flags : Flags) (negative : Bool) (c : UInt8) :
    integerPrefix flags negative c = signBytes flags negative ++ hashBytes flags c := rfl

/-- A list that is a sign, or nothing. -/
def IsSign (sign : List UInt8) : Prop := sign.length ≤ 1 ∧ ∀ byte ∈ sign, byte < 0x30

/-- A list that starts with no sign. -/
def StartsHigh (body : List UInt8) : Prop := ∀ byte ∈ body.head?, 0x30 ≤ byte

theorem signBytes_isSign (flags : Flags) (negative : Bool) : IsSign (signBytes flags negative) := by
  unfold signBytes
  split
  · exact ⟨le_rfl, List.forall_mem_singleton.mpr (by decide)⟩
  · split
    · exact ⟨le_rfl, List.forall_mem_singleton.mpr (by decide)⟩
    · split
      · exact ⟨le_rfl, List.forall_mem_singleton.mpr (by decide)⟩
      · exact ⟨Nat.zero_le _, List.forall_mem_nil _⟩

theorem isoSign_isSign (flags : Flags) (c : UInt8) (value : Int) :
    IsSign (isoSign flags c value) := by
  unfold isoSign
  split
  · have signs := signBytes_isSign flags (decide (value < 0))
    simp only [signBytes, decide_eq_true_eq] at signs
    exact signs
  · exact ⟨Nat.zero_le _, List.forall_mem_nil _⟩

/-- A sign and what comes after it are determined by both together. -/
theorem sign_append_eq_iff {first second body other : List UInt8} (sign : IsSign first)
    (otherSign : IsSign second) (high : StartsHigh body) (otherHigh : StartsHigh other) :
    first ++ body = second ++ other ↔ first = second ∧ body = other := by
  have apart : ∀ {byte : UInt8}, byte < 0x30 → ¬ 0x30 ≤ byte := fun below above =>
    absurd (UInt8.lt_of_lt_of_le below above) (UInt8.lt_irrefl _)
  constructor
  · intro same
    match first, second with
    | [], [] => exact ⟨rfl, same⟩
    | [], mark :: rest =>
        rw [List.nil_append] at same
        exact absurd (high mark (by rw [same]; rfl)) (apart (otherSign.2 _ List.mem_cons_self))
    | mark :: rest, [] =>
        rw [List.nil_append] at same
        exact absurd (otherHigh mark (by rw [← same]; rfl)) (apart (sign.2 _ List.mem_cons_self))
    | [mark], [otherMark] =>
        rw [List.singleton_append, List.singleton_append, List.cons.injEq] at same
        exact ⟨congrArg (fun byte => [byte]) same.1, same.2⟩
    | _ :: _ :: _, _ => exact absurd sign.1 (by simp)
    | _, _ :: _ :: _ => exact absurd otherSign.1 (by simp)
  · rintro ⟨rfl, rfl⟩
    rfl

/-- When the sign is the one of ISO C. -/
theorem signBytes_eq_iff {flags : Flags} {negative : Bool} {c : UInt8} {value other : Int}
    (sign : negative = true ↔ value < 0) :
    signBytes flags negative = isoSign flags c other ↔
      if IsSigned c then (value < 0 ↔ other < 0)
      else 0 ≤ value ∧ flags.plus = false ∧ flags.space = false := by
  rw [isoSign]
  split
  · rw [← sign, signBytes]
    by_cases below : other < 0
    · rw [if_pos below]
      cases negative <;> cases flags.plus <;> cases flags.space <;> simp [below]
    · rw [if_neg below]
      cases negative <;> cases flags.plus <;> cases flags.space <;> simp [below]
  · rw [← Int.not_lt, ← sign, signBytes]
    cases negative <;> cases flags.plus <;> cases flags.space <;> simp

/-! ## Bodies -/

/-- The precision is one that is read, and zero is printed. -/
def PrecisionKept (precision : Option Nat) (number : Nat) : Prop :=
  (∀ least ∈ precision, least < 2 ^ 64 - 1) ∧ ¬ (precision = some 0 ∧ number = 0)

/-- The flag `#` comes with a number that is not zero, and for an octal number with no precision
of more than its digits. -/
def HashKept (flags : Flags) (precision : Option Nat) (c : UInt8) (number : Nat) : Prop :=
  flags.hash = true →
    number ≠ 0 ∧ (c = 0x6F → ∀ least ∈ precision, least ≤ (Nat.digits 8 number).length)

theorem startsHigh_numeral (c : UInt8) (zeros number : Nat) :
    StartsHigh (numeral (digitByte c) (integerBase c) zeros number) :=
  fun _ head => le_of_mem_numeral (List.mem_of_mem_head? head)

theorem startsHigh_isoBody (flags : Flags) (precision : Option Nat) (c : UInt8) (number : Nat) :
    StartsHigh (isoBody flags precision c number) := by
  unfold isoBody
  split
  · rw [isoDigits_eq]
    exact startsHigh_numeral _ _ _
  · split
    · rintro _ ⟨⟩
      decide
    · rw [isoDigits_eq]
      exact startsHigh_numeral _ _ _

section Bodies

variable {spec : Spec} {precision : Option Nat} {c : UInt8} {value : BitVec 64} {number : Nat}

theorem startsHigh_body : StartsHigh (hashBytes spec.flags c ++ integerDigits spec c value) := by
  unfold hashBytes
  split
  · rintro _ ⟨⟩
    decide
  · split
    · rintro _ ⟨⟩
      decide
    · exact startsHigh_numeral _ _ _

theorem digits_length_le (c : UInt8) (value : BitVec 64) :
    (Nat.digits (integerBase c) value.toNat).length ≤ 64 := by
  have few := digitCount_le c value
  rw [digitCount_eq_max] at few
  omega

theorem integerPrinted_eq (read : spec.precision = precisionOf precision) :
    integerPrinted spec c value =
      printedWidth (precisionOf precision)
        (max 1 (Nat.digits (integerBase c) value.toNat).length) := by
  rw [integerPrinted, bufLength_eq_digitCount, digitCount_eq_max, read]

theorem digits_length_eq_zero_iff (c : UInt8) (number : Nat) :
    (Nat.digits (integerBase c) number).length = 0 ↔ number = 0 := by
  rw [List.length_eq_zero_iff, Nat.digits_eq_nil_iff_eq_zero]

/-- When the digits are the ones of ISO C. -/
theorem digits_eq_iff (read : spec.precision = precisionOf precision) :
    integerDigits spec c value = isoDigits c (precision.getD 1) number ↔
      value.toNat = number ∧ PrecisionKept precision number := by
  have more := bufLength_le_integerPrinted spec c value
  have fewer := digits_length_le_bufLength (one_lt_integerBase c) value.isLt
  have kept := printedWidth_eq_iff precision (digits_length_le c value)
  rw [← integerPrinted_eq read, digits_length_eq_zero_iff] at kept
  rw [integerDigits, isoDigits_eq,
    numeral_eq_iff (one_lt_integerBase c) (digitByte_injOn_base c)]
  apply and_congr_right
  rintro rfl
  rw [PrecisionKept, ← kept]
  omega

/-- When the digits of an octal number after a zero are the ones of ISO C. -/
theorem octal_eq_iff (read : spec.precision = precisionOf precision) :
    0x30 :: integerDigits spec 0x6F value =
        isoDigits 0x6F (max (precision.getD 1) ((Nat.digits 8 number).length + 1)) number ↔
      value.toNat = number ∧ number ≠ 0 ∧
        ∀ least ∈ precision, least ≤ (Nat.digits 8 number).length := by
  have base : integerBase 0x6F = 8 := rfl
  have more := bufLength_le_integerPrinted spec 0x6F value
  have fewer := digits_length_le_bufLength (one_lt_integerBase 0x6F) value.isLt
  have kept := printedWidth_succ_eq_iff precision (digits_length_le 0x6F value)
  rw [← integerPrinted_eq read, ne_eq, digits_length_eq_zero_iff] at kept
  have zero : 0x30 :: integerDigits spec 0x6F value = numeral (digitByte 0x6F) (integerBase 0x6F)
      (1 + (integerPrinted spec 0x6F value -
        (Nat.digits (integerBase 0x6F) value.toNat).length)) value.toNat := by
    rw [← replicate_append_numeral, digitByte_zero]
    rfl
  rw [zero, isoDigits_eq, numeral_eq_iff (one_lt_integerBase 0x6F) (digitByte_injOn_base 0x6F)]
  apply and_congr_right
  rintro rfl
  rw [base] at *
  rw [← kept]
  omega

/-- **When what stands after the sign is the one of ISO C.** -/
theorem body_eq_iff (read : spec.precision = precisionOf precision)
    (hash : spec.flags.hash = true → c = 0x6F ∨ c = 0x78 ∨ c = 0x58) :
    hashBytes spec.flags c ++ integerDigits spec c value =
        isoBody spec.flags precision c number ↔
      value.toNat = number ∧ PrecisionKept precision number ∧
        HashKept spec.flags precision c number := by
  rw [hashBytes, isoBody, HashKept]
  cases hashed : spec.flags.hash with
  | false => simp [digits_eq_iff read]
  | true =>
      rcases hash hashed with rfl | hex
      · have few := digits_length_le 0x6F value
        have base : integerBase 0x6F = 8 := rfl
        rw [base] at few
        show 0x30 :: integerDigits spec 0x6F value =
          isoDigits 0x6F (max (precision.getD 1) ((Nat.digits 8 number).length + 1)) number ↔ _
        rw [octal_eq_iff read]
        constructor
        · rintro ⟨rfl, positive, short⟩
          refine ⟨rfl, ⟨fun least member => ?_, fun zero => positive zero.2⟩,
            fun _ => ⟨positive, fun _ => short⟩⟩
          have below := short least member
          omega
        · rintro ⟨rfl, -, kept⟩
          exact ⟨rfl, (kept rfl).1, (kept rfl).2 rfl⟩
      · have other : c ≠ 0x6F := by
          rcases hex with rfl | rfl <;> decide
        have notDigit : c ≠ 0x30 := by
          rcases hex with rfl | rfl <;> decide
        by_cases zero : number = 0
        · subst zero
          refine iff_of_false ?_ (fun kept => (kept.2.2 rfl).1 rfl)
          simp only [hex, other, true_and, and_false, if_true, if_false, ne_eq, not_true_eq_false,
            isoDigits_eq, numeral_zero, digitByte_zero]
          intro same
          apply notDigit
          apply List.eq_of_mem_replicate
          rw [← same]
          simp
        · simp [hex, other, zero, digits_eq_iff read]

end Bodies

/-! ## Whole conversions -/

section Conversions

variable {spec : Spec} {precision : Option Nat} {c : UInt8} {word : BitVec 64}

theorem valueOf_nonneg (word : BitVec 64) (unsigned : ¬ IsSigned c) (bits : Nat) :
    0 ≤ valueOf c word bits := by
  rw [valueOf, if_neg unsigned]
  exact Int.natCast_nonneg _

/-- When an integer without a width is printed as ISO C prints it. -/
theorem convertInteger_iso_iff (args bits : Nat) {read : Nat} {value : BitVec 64} {negative : Bool}
    (narrow : spec.width = 0) (least : spec.precision = precisionOf precision)
    (hash : spec.flags.hash = true → c = 0x6F ∨ c = 0x78 ∨ c = 0x58)
    (sign : negative = true ↔ valueOf c word read < 0)
    (magnitude : value.toNat = (valueOf c word read).natAbs) :
    (convertInteger spec args c value negative).calls.flatten =
        isoSign spec.flags c (valueOf c word bits) ++
          isoBody spec.flags precision c (valueOf c word bits).natAbs ↔
      valueOf c word read = valueOf c word bits ∧
      (¬ IsSigned c → spec.flags.plus = false ∧ spec.flags.space = false) ∧
      PrecisionKept precision (valueOf c word bits).natAbs ∧
      HashKept spec.flags precision c (valueOf c word bits).natAbs := by
  rw [convertInteger_bare _ _ _ _ narrow, integerPrefix_eq, List.append_assoc,
    sign_append_eq_iff (signBytes_isSign _ _) (isoSign_isSign _ _ _) startsHigh_body
      (startsHigh_isoBody _ _ _ _),
    signBytes_eq_iff sign, body_eq_iff least hash, magnitude]
  by_cases signed : IsSigned c
  · simp only [signed, if_true, not_true_eq_false, false_implies, true_and]
    constructor
    · rintro ⟨signs, same, kept⟩
      exact ⟨by omega, kept⟩
    · rintro ⟨same, kept⟩
      rw [same]
      exact ⟨Iff.rfl, rfl, kept⟩
  · have first := valueOf_nonneg word signed read
    have second := valueOf_nonneg word signed bits
    simp only [signed, if_false, not_false_eq_true, true_implies]
    constructor
    · rintro ⟨⟨-, signs⟩, same, kept⟩
      exact ⟨by omega, signs, kept⟩
    · rintro ⟨same, signs, kept⟩
      exact ⟨⟨first, signs⟩, by omega, kept⟩

end Conversions

/-- The conversions of integers that ISO C has. -/
def IsIsoInteger (c : UInt8) : Prop := IsInteger c ∧ c ≠ 0x70

instance : DecidablePred IsIsoInteger := fun _ => inferInstanceAs (Decidable (_ ∧ _))

/-- When an integer conforms: its argument is of the type of its length modifier, it has no sign
flag if it is unsigned, its precision and its flag `#` are kept, and its octal value has no more
than 20 digits. -/
structure Conforms (flags : Flags) (precision : Option Nat) (length : Length) (c : UInt8)
    (word : BitVec 64) : Prop where
  value : ∀ read ∈ vaBits length, ∀ bits ∈ isoBits length, valueOf c word read = valueOf c word bits
  signs : ¬ IsSigned c → flags.plus = false ∧ flags.space = false
  least : ∀ bits ∈ isoBits length, PrecisionKept precision (valueOf c word bits).natAbs
  hash : ∀ bits ∈ isoBits length, HashKept flags precision c (valueOf c word bits).natAbs
  octal : c = 0x6F → ∀ bits ∈ isoBits length, (valueOf c word bits).natAbs < 2 ^ 60

theorem isoBits_isSome {length : Length} {read : Nat} (size : vaBits length = some read) :
    ∃ bits, isoBits length = some bits := by
  cases length <;> cases size <;> exact ⟨_, rfl⟩

/-- An integer conforms where its values and its flags do, for the sizes of its length modifier. -/
theorem conforms_iff {flags : Flags} {precision : Option Nat} {length : Length} {c : UInt8}
    {word : BitVec 64} {read bits : Nat} (size : vaBits length = some read)
    (isoSize : isoBits length = some bits) :
    Conforms flags precision length c word ↔
      valueOf c word read = valueOf c word bits ∧
      (¬ IsSigned c → flags.plus = false ∧ flags.space = false) ∧
      PrecisionKept precision (valueOf c word bits).natAbs ∧
      HashKept flags precision c (valueOf c word bits).natAbs ∧
      (c = 0x6F → (valueOf c word bits).natAbs < 2 ^ 60) := by
  have only : ∀ property : Nat → Prop,
      (∀ other ∈ isoBits length, property other) ↔ property bits := by
    intro property
    rw [isoSize]
    simp
  constructor
  · intro conforms
    exact ⟨conforms.value read size bits isoSize, conforms.signs, (only _).mp conforms.least,
      (only _).mp conforms.hash, fun octal => (only _).mp (conforms.octal octal)⟩
  · rintro ⟨value, signs, least, hash, octal⟩
    refine ⟨?_, signs, (only _).mpr least, (only _).mpr hash, fun isOctal =>
      (only _).mpr (octal isOctal)⟩
    intro other same
    rw [size, Option.mem_some] at same
    subst same
    exact (only _).mpr value

theorem printedAs_of_iso {c : UInt8} (integer : IsIsoInteger c) : printedAs c = c :=
  if_neg integer.2

/-- An octal value that does not overrun, and no prefix of an unsigned value with a sign. -/
theorem overruns_iff {arguments : Arguments} {conv : Conversion} {read : Nat}
    (size : vaBits conv.spec.length = some read)
    (signs : ¬ IsSigned conv.specifier →
      conv.spec.flags.plus = false ∧ conv.spec.flags.space = false) :
    ¬ conv.Overruns arguments ↔ (conv.specifier = 0x6F →
      (valueOf conv.specifier (arguments.word conv.args) read).natAbs < 2 ^ 60) := by
  have unsigned : (conv.specifier = 0x78 ∨ conv.specifier = 0x58 ∨ conv.specifier = 0x70) ∨
      conv.specifier = 0x6F → ¬ IsSigned conv.specifier := by
    rintro ((same | same | same) | same) <;> rw [same] <;> decide
  constructor
  · intro inside octal
    rw [valueOf, if_neg (unsigned (.inr octal)), Int.natAbs_natCast]
    by_contra large
    exact inside (.inr ⟨octal, read, size, Nat.le_of_not_lt large⟩)
  · rintro short (⟨-, signed, hex⟩ | ⟨octal, bits, same, large⟩)
    · obtain ⟨plus, space⟩ := signs (unsigned (.inl hex))
      rw [plus, space] at signed
      simp at signed
    · have below := short octal
      rw [valueOf, if_neg (unsigned (.inr octal)), Int.natAbs_natCast] at below
      rw [size, Option.some.injEq] at same
      subst same
      omega

/-- When the switch prints an integer without a width as ISO C prints it. -/
theorem convert_iso_iff {arguments : Arguments} {conv : Conversion} {emission : Emission}
    {precision : Option Nat}
    (known : convert arguments conv.spec conv.args conv.specifier = some emission)
    (integer : IsIsoInteger conv.specifier) (length : conv.spec.length ≠ .longDouble)
    (narrow : conv.spec.width = 0) (least : conv.spec.precision = precisionOf precision)
    (hash : conv.spec.flags.hash = true →
      conv.specifier = 0x6F ∨ conv.specifier = 0x78 ∨ conv.specifier = 0x58) :
    emission.Inside ∧
        isoInteger conv.spec.flags precision conv.spec.length conv.specifier
          (arguments.word conv.args) = some emission.calls.flatten ↔
      Conforms conv.spec.flags precision conv.spec.length conv.specifier
        (arguments.word conv.args) := by
  obtain ⟨read, size⟩ := Option.ne_none_iff_exists'.mp
    (fun none_ => length ((vaBits_eq_none_iff conv.spec.length).mp none_))
  obtain ⟨bits, isoSize⟩ := isoBits_isSome size
  have made := known
  rw [convert_integer _ _ _ integer.1] at made
  obtain ⟨⟨value, negative⟩, found, emitted⟩ := Option.map_eq_some_iff.mp made
  obtain ⟨sign, magnitude⟩ := integerValue_eq size integer.2 found
  have printed := convertInteger_iso_iff (conv.args + 1) bits narrow least hash sign magnitude
  simp only [printedAs_of_iso integer] at emitted
  rw [emitted, eq_comm] at printed
  rw [convert_inside_iff known, isoInteger, isoSize, Option.map_some, Option.some.injEq, printed,
    conforms_iff size isoSize]
  constructor
  · rintro ⟨inside, value, signs, kept, hashKept⟩
    have octal := (overruns_iff size signs).mp inside
    rw [value] at octal
    exact ⟨value, signs, kept, hashKept, octal⟩
  · rintro ⟨value, signs, kept, hashKept, octal⟩
    rw [← value] at octal
    exact ⟨(overruns_iff size signs).mpr octal, value, signs, kept, hashKept⟩

/-- When an integer whose precision is not `*` is printed as ISO C prints it. -/
theorem turn_digits_iso_iff {format : CString} {arguments : Arguments} {cursor args : Nat}
    {text : ConversionText} {c : UInt8} {rest : List UInt8}
    (here : format.At cursor (0x25 :: (text.bytes ++ c :: rest)))
    (integer : IsIsoInteger c) (length : text.length ≠ .longDouble)
    (noWidth : text.digits = [] ∧ text.star = false)
    (hash : 0x23 ∈ text.flags → c = 0x6F ∨ c = 0x78 ∨ c = 0x58) :
    (∃ t, turn format arguments cursor args false = some t ∧ t.emission.Inside ∧
      isoInteger (Flags.ofBytes text.flags) (text.precision.map decimal) text.length c
        (arguments.word args) = some t.emission.calls.flatten) ↔
      Conforms (Flags.ofBytes text.flags) (text.precision.map decimal) text.length c
        (arguments.word args) := by
  have supported : Supported text.length c := .inr (.inr (.inr (.inr ⟨integer.1, length⟩)))
  obtain ⟨t, run, known⟩ := turn_conversion arguments args here supported integer.1.ne_percent
  have next : text.argsAfter args = args := by
    rw [ConversionText.argsAfter, noWidth.2]
    rfl
  have narrow : (text.conversion arguments args c).spec.width = 0 := by
    rw [ConversionText.conversion, ConversionText.spec, ConversionText.readWidth, noWidth.2,
      noWidth.1]
    rfl
  have whole := convert_iso_iff known integer length narrow text.readPrecision_eq
    fun held => hash (of_decide_eq_true held)
  simp only [ConversionText.conversion, next] at whole
  rw [run]
  simp only [Option.some.injEq, exists_eq_left']
  exact whole

/-! ## Precisions of ISO C -/

/-- A precision of ISO C: none, digits after a point, or a star after a point. -/
inductive IsoPrecision where
  | absent
  | digits (number : List UInt8)
  | star
deriving DecidableEq

namespace IsoPrecision

/-- How a precision is written. -/
def bytes : IsoPrecision → List UInt8
  | absent => []
  | digits number => 0x2E :: number
  | star => [0x2E, 0x2A]

/-- The least number of digits that a precision asks for. A star takes an `int` argument, and a
negative one is as if there were no precision. -/
def least (arguments : Arguments) (args : Nat) : IsoPrecision → Option Nat
  | absent => none
  | digits number => some (decimal number)
  | star =>
      let value := ((arguments.word args).setWidth 32).toInt
      if value < 0 then none else some value.toNat

/-- The argument after the precision. -/
def argsAfter (args : Nat) : IsoPrecision → Nat
  | absent => args
  | digits _ => args
  | star => args + 1

end IsoPrecision

/-- What ISO C has between the percent sign of a conversion without a width and its specifier. -/
structure IsoText where
  flags : List UInt8
  precision : IsoPrecision
  length : Length
  isFlag : ∀ c ∈ flags, IsFlag c
  isPrecision : ∀ number, precision = .digits number → ∀ c ∈ number, IsDigit c

/-- How a conversion is written. -/
def IsoText.bytes (text : IsoText) : List UInt8 :=
  text.flags ++ (text.precision.bytes ++ lengthName text.length)

/-- The same text as `vcbprintf` reads it, where the precision is not `*`. -/
def IsoText.withoutStar (text : IsoText) (number : Option (List UInt8))
    (isPrecision : ∀ digits ∈ number, ∀ c ∈ digits, IsDigit c) : ConversionText where
  flags := text.flags
  digits := []
  star := false
  precision := number
  length := text.length
  isFlag := text.isFlag
  isWidth := ConversionText.isWidth_nil
  isPrecision := isPrecision

/-- What `vcbprintf` reads of a conversion ends before the star of its precision. -/
theorem conversionEnd_star {flags : List UInt8} (isFlag : ∀ c ∈ flags, IsFlag c)
    (rest : List UInt8) :
    conversionEnd (flags ++ 0x2E :: 0x2A :: rest) = (.default, 0x2A :: rest) := by
  have starts : StartsWithout IsFlag (0x2E :: 0x2A :: rest) := by
    rintro _ ⟨⟩
    decide
  have modifier : takeLength (0x2A :: rest) = (.default, 0x2A :: rest) :=
    takeLength_append .default (by rintro _ ⟨⟩; decide)
  rw [conversionEnd, takeFlags_append isFlag starts]
  exact modifier

/-- **A precision that is `*` is not read.** The conversion is printed as text, from its percent
sign on. -/
theorem turn_star_text {format : CString} {cursor : Nat} (arguments : Arguments) (args : Nat)
    {flags rest : List UInt8} (isFlag : ∀ c ∈ flags, IsFlag c)
    (here : format.At cursor (0x25 :: (flags ++ 0x2E :: 0x2A :: rest))) :
    ∃ t, turn format arguments cursor args false = some t ∧
      t.emission.calls.flatten.head? = some 0x25 := by
  have ending := conversionEnd_star isFlag rest
  have single : (flags ++ 0x2E :: 0x2A :: rest).headD 0 ≠ 0x25 := by
    cases flags with
    | nil =>
        rw [List.nil_append, List.headD_cons]
        decide
    | cons first others =>
        rintro rfl
        exact absurd (isFlag 0x25 List.mem_cons_self) (by decide)
  have unknown : ¬ Supported (conversionEnd (flags ++ 0x2E :: 0x2A :: rest)).1
      ((conversionEnd (flags ++ 0x2E :: 0x2A :: rest)).2.headD 0) := by
    rw [ending]
    exact (by decide : ¬ Supported .default 0x2A)
  obtain ⟨next, run, -⟩ := turn_eq arguments args false here
  rw [step_unknown arguments args single unknown] at run
  exact ⟨_, run, rfl⟩

/-- ISO C prints nothing that starts with a percent sign. -/
theorem isoInteger_head {flags : Flags} {precision : Option Nat} {length : Length} {c : UInt8}
    {word : BitVec 64} {bytes : List UInt8}
    (printed : isoInteger flags precision length c word = some bytes) :
    bytes.head? ≠ some 0x25 := by
  obtain ⟨bits, -, rfl⟩ := Option.map_eq_some_iff.mp printed
  have high := startsHigh_isoBody flags precision c (valueOf c word bits).natAbs
  intro percent
  rw [isoSign] at percent
  split_ifs at percent
  · simp at percent
  · simp at percent
  · simp at percent
  · exact absurd (high _ percent) (by decide)
  · exact absurd (high _ percent) (by decide)

/-- **When an integer is printed as ISO C prints it.** For every format, at every place where an
integer is written without a width, with flags that ISO C defines for it and any precision of
ISO C: the turn writes inside the arrays and prints what ISO C prints exactly when the precision
is not `*` and the conversion conforms. -/
theorem turn_iso_iff {format : CString} {arguments : Arguments} {cursor args : Nat}
    {text : IsoText} {c : UInt8} {rest : List UInt8}
    (here : format.At cursor (0x25 :: (text.bytes ++ c :: rest)))
    (integer : IsIsoInteger c) (length : text.length ≠ .longDouble)
    (hash : 0x23 ∈ text.flags → c = 0x6F ∨ c = 0x78 ∨ c = 0x58) :
    (∃ t, turn format arguments cursor args false = some t ∧ t.emission.Inside ∧
      isoInteger (Flags.ofBytes text.flags) (text.precision.least arguments args) text.length c
        (arguments.word (text.precision.argsAfter args)) = some t.emission.calls.flatten) ↔
      text.precision ≠ .star ∧
        Conforms (Flags.ofBytes text.flags) (text.precision.least arguments args) text.length c
          (arguments.word (text.precision.argsAfter args)) := by
  cases written : text.precision with
  | absent =>
      have bytes : text.bytes = (text.withoutStar none (by rintro _ ⟨⟩)).bytes := by
        rw [IsoText.bytes, written]
        rfl
      rw [bytes] at here
      simp only [ne_eq, reduceCtorEq, not_false_eq_true, true_and]
      exact turn_digits_iso_iff here integer length ⟨rfl, rfl⟩ hash
  | digits number =>
      have valid : ∀ digits ∈ some number, ∀ c ∈ digits, IsDigit c := by
        rintro _ ⟨⟩
        exact text.isPrecision number written
      have bytes : text.bytes = (text.withoutStar (some number) valid).bytes := by
        rw [IsoText.bytes, written]
        rfl
      rw [bytes] at here
      simp only [ne_eq, reduceCtorEq, not_false_eq_true, true_and]
      exact turn_digits_iso_iff here integer length ⟨rfl, rfl⟩ hash
  | star =>
      rw [IsoText.bytes, written] at here
      simp only [IsoPrecision.bytes, List.append_assoc, List.cons_append, List.nil_append] at here
      obtain ⟨t, run, percent⟩ := turn_star_text arguments args text.isFlag here
      refine iff_of_false ?_ fun kept => kept.1 rfl
      rintro ⟨other, same, -, printed⟩
      rw [run, Option.some.injEq] at same
      subst same
      exact isoInteger_head printed percent

/-- The conversion `%.3d` of 7. -/
theorem turn_iso_sample :
    ∃ t, turn (.ofBytes [0x25, 0x2E, 0x33, 0x64] (by decide)) (.constant 7) 0 0 false = some t ∧
      t.emission.Inside ∧
      isoInteger (Flags.ofBytes []) (some 3) .default 0x64 7 = some t.emission.calls.flatten := by
  apply (@turn_iso_iff (.ofBytes [0x25, 0x2E, 0x33, 0x64] (by decide)) (.constant 7) 0 0
    ⟨[], .digits [0x33], .default, List.forall_mem_nil _, by
      rintro _ ⟨⟩
      exact List.forall_mem_singleton.mpr (by decide)⟩ 0x64 [] (CString.At.zero _) (by decide)
    (by decide) (by decide)).mpr
  refine ⟨by decide, ?_, by decide, ?_, ?_, by decide⟩
  · rintro _ ⟨⟩ _ ⟨⟩
    decide
  · rintro _ ⟨⟩
    exact ⟨by rintro _ ⟨⟩; decide, by decide⟩
  · rintro _ ⟨⟩ hash
    exact absurd hash (by decide)

/-- The arguments 3, 7, 7 and so on. -/
def threeThenSevens : Arguments :=
  { Arguments.constant 7 with word := fun args => if args = 0 then 3 else 7 }

/-- What is printed where ISO C prints something else: `%hhd` of 300, `%.0d` of 0, `%+u` of 7,
`%#x` of 0, `%#.3o` of 8, and `%.*d` with the precision 3 and the value 7. -/
theorem turn_iso_missed :
    ((turn (.ofBytes [0x25, 0x68, 0x68, 0x64] (by decide)) (.constant 300) 0 0 false).map
        (fun t => t.emission.calls.flatten) = some [0x33, 0x30, 0x30] ∧
      isoInteger Flags.none none .shortShort 0x64 300 = some [0x34, 0x34]) ∧
    ((turn (.ofBytes [0x25, 0x2E, 0x30, 0x64] (by decide)) (.constant 0) 0 0 false).map
        (fun t => t.emission.calls.flatten) = some [0x30] ∧
      isoInteger Flags.none (some 0) .default 0x64 0 = some []) ∧
    ((turn (.ofBytes [0x25, 0x2B, 0x75] (by decide)) (.constant 7) 0 0 false).map
        (fun t => t.emission.calls.flatten) = some [0x2B, 0x37] ∧
      isoInteger (Flags.ofBytes [0x2B]) none .default 0x75 7 = some [0x37]) ∧
    ((turn (.ofBytes [0x25, 0x23, 0x78] (by decide)) (.constant 0) 0 0 false).map
        (fun t => t.emission.calls.flatten) = some [0x30, 0x78, 0x30] ∧
      isoInteger (Flags.ofBytes [0x23]) none .default 0x78 0 = some [0x30]) ∧
    ((turn (.ofBytes [0x25, 0x23, 0x2E, 0x33, 0x6F] (by decide)) (.constant 8) 0 0 false).map
        (fun t => t.emission.calls.flatten) = some [0x30, 0x30, 0x31, 0x30] ∧
      isoInteger (Flags.ofBytes [0x23]) (some 3) .default 0x6F 8 = some [0x30, 0x31, 0x30]) ∧
    (turn (.ofBytes [0x25, 0x2E, 0x2A, 0x64] (by decide)) threeThenSevens 0 0 false).map
        (fun t => t.emission.calls.flatten) = some [0x25, 0x2E, 0x2A, 0x64] ∧
      isoInteger Flags.none (IsoPrecision.star.least threeThenSevens 0) .default 0x64
        (threeThenSevens.word (IsoPrecision.star.argsAfter 0)) = some [0x30, 0x30, 0x37] := by
  decide +kernel

end VineyardLoader
