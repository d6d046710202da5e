import Mathlib.Data.Nat.Log
import VineyardLoader.Foundation.Numerals
import VineyardLoader.Lib.Vcbprintf

/-!
# Integers in `vcbprintf`

The digits that `vcbprintf` makes of a value are its numeral in the base of the specifier, where
zero has one digit (`bufLoop_eq`). With the zeros of the precision before them, an integer is
printed as a prefix and a numeral, between what pads it (`convertInteger_flatten`).

The arrays `prefix` and `buf` have room for three and for 21 bytes. That is enough unless both a
sign and `0x` are put into the prefix, or an octal value has more than 20 digits
(`convertInteger_inside_iff`).
-/

set_option autoImplicit false

namespace VineyardLoader

/-! ## Digits -/

/-- The byte of a digit. -/
def digitByte (specifier : UInt8) (digit : Nat) : UInt8 := (convDigits specifier).getD digit 0

theorem digitByte_zero (specifier : UInt8) : digitByte specifier 0 = 0x30 := by
  unfold digitByte convDigits
  split <;> rfl

theorem digitByte_injOn (specifier : UInt8) : Set.InjOn (digitByte specifier) (Set.Iio 16) := by
  have different : ∀ first < 16, ∀ second < 16,
      digitByte specifier first = digitByte specifier second → first = second := by
    unfold digitByte convDigits
    split
    · decide
    · decide
  intro first firstLt second secondLt same
  exact different first firstLt second secondLt same

theorem integerBase_cases (specifier : UInt8) :
    integerBase specifier = 16 ∨ integerBase specifier = 8 ∨ integerBase specifier = 10 := by
  unfold integerBase
  split
  · exact .inl rfl
  · split
    · exact .inr (.inl rfl)
    · exact .inr (.inr rfl)

theorem one_lt_integerBase (specifier : UInt8) : 1 < integerBase specifier := by
  rcases integerBase_cases specifier with base | base | base <;> omega

theorem digitByte_injOn_base (specifier : UInt8) :
    Set.InjOn (digitByte specifier) (Set.Iio (integerBase specifier)) := by
  apply (digitByte_injOn specifier).mono
  apply Set.Iio_subset_Iio
  rcases integerBase_cases specifier with base | base | base <;> omega

theorem bufLengthLoop_eq {base : Nat} (large : 1 < base) :
    ∀ {turns length copy : Nat}, copy < base ^ (turns + 1) →
      bufLengthLoop base turns length copy = length + Nat.log base copy := by
  intro turns
  induction turns with
  | zero =>
      intro length copy bound
      rw [Nat.zero_add, Nat.pow_one] at bound
      rw [bufLengthLoop, Nat.log_of_lt bound, Nat.add_zero]
  | succ turns ih =>
      intro length copy bound
      rw [bufLengthLoop]
      split
      · rename_i more
        have quotient : copy / base < base ^ (turns + 1) := by
          rw [Nat.div_lt_iff_lt_mul (by omega), ← Nat.pow_succ]
          exact bound
        rw [ih quotient, Nat.log_of_one_lt_of_le large more]
        omega
      · rename_i small
        rw [Nat.log_of_lt (Nat.lt_of_not_le small), Nat.add_zero]

/-- The count of the digits is the logarithm and one. -/
theorem bufLength_eq {base value : Nat} (large : 1 < base) (small : value < 2 ^ 64) :
    bufLength base value = Nat.log base value + 1 := by
  have room : 2 ^ 64 ≤ base ^ (64 + 1) :=
    (Nat.pow_le_pow_left large 64).trans (Nat.pow_le_pow_right (by omega) (by omega))
  rw [bufLength, bufLengthLoop_eq large (by omega), Nat.add_comm]

/-- A number of digits is enough for the values below a power. -/
theorem bufLength_le_iff_lt_pow {base value room : Nat} (large : 1 < base)
    (small : value < 2 ^ 64) (some : 0 < room) :
    bufLength base value ≤ room ↔ value < base ^ room := by
  rw [bufLength_eq large small]
  by_cases zero : value = 0
  · simp [zero, Nat.pow_pos (Nat.lt_trans Nat.zero_lt_one large), Nat.succ_le_of_lt some]
  · rw [← Nat.log_lt_iff_lt_pow large zero]
    omega

/-- **The digits that are written are those of the value**, where zero has one digit. -/
theorem bufLoop_eq (specifier : UInt8) {base : Nat} (large : 1 < base) :
    ∀ {value : Nat} (buf : List UInt8),
      bufLoop (convDigits specifier) base (Nat.log base value + 1) value buf =
        numeral (digitByte specifier) base (if value = 0 then 1 else 0) value ++ buf := by
  intro value
  induction value using Nat.strongRecOn with
  | ind value ih =>
      intro buf
      rw [bufLoop]
      by_cases small : value < base
      · rw [Nat.log_of_lt small, bufLoop, Nat.mod_eq_of_lt small]
        split
        · rename_i zero
          subst zero
          simp [numeral, digitByte]
        · rename_i positive
          simp [numeral, Nat.digits_of_lt base value positive small, digitByte]
      · have positive : 0 < value := by omega
        have quotient : value / base < value := Nat.div_lt_self positive large
        have more : value / base ≠ 0 := by
          rw [Nat.div_ne_zero_iff]
          omega
        rw [Nat.log_of_one_lt_of_le large (Nat.le_of_not_lt small), ih _ quotient, if_neg more,
          if_neg positive.ne', numeral, numeral, Nat.digits_def' large positive]
        simp [digitByte]

theorem digits_length_le_bufLength {base value : Nat} (large : 1 < base) (small : value < 2 ^ 64) :
    (Nat.digits base value).length ≤ bufLength base value := by
  rw [bufLength_eq large small]
  by_cases zero : value = 0
  · simp [zero]
  · rw [Nat.length_digits base value large zero]

/-! ## What is printed -/

/-- The padding is what is missing of the width, where the length is a `size_t`. -/
theorem padLength_eq_sub (width printed : Nat) :
    padLength width printed = width - printed % 2 ^ 64 := by
  rw [padLength]
  split <;> omega

section Printed

variable (spec : Spec) (args : Nat) (specifier : UInt8) (value : BitVec 64) (negative : Bool)

/-- How many digits are printed. -/
def integerPrinted : Nat :=
  printedWidth spec.precision (bufLength (integerBase specifier) value.toNat)

/-- The digits that are printed, with the zeros of the precision. -/
def integerDigits : List UInt8 :=
  numeral (digitByte specifier) (integerBase specifier)
    (integerPrinted spec specifier value - (Nat.digits (integerBase specifier) value.toNat).length)
    value.toNat

/-- How much a conversion of an integer is padded. -/
def integerPad : Nat :=
  padLength spec.width
    (integerPrinted spec specifier value + (integerPrefix spec.flags negative specifier).length)

theorem bufLength_le_integerPrinted :
    bufLength (integerBase specifier) value.toNat ≤ integerPrinted spec specifier value := by
  unfold integerPrinted printedWidth
  split
  · omega
  · exact le_rfl

theorem integerDigits_length :
    (integerDigits spec specifier value).length = integerPrinted spec specifier value := by
  have digits := digits_length_le_bufLength (one_lt_integerBase specifier) value.isLt
  have printed := bufLength_le_integerPrinted spec specifier value
  rw [integerDigits, numeral_length]
  omega

/-- The zeros of the precision and the digits that are written. -/
theorem integerDigits_eq :
    integerDigits spec specifier value =
      List.replicate (integerPrinted spec specifier value -
          bufLength (integerBase specifier) value.toNat) 0x30 ++
        bufLoop (convDigits specifier) (integerBase specifier)
          (bufLength (integerBase specifier) value.toNat) value.toNat [] := by
  have printed := bufLength_le_integerPrinted spec specifier value
  have large := one_lt_integerBase specifier
  have count := bufLength_eq large value.isLt
  rw [count] at printed ⊢
  rw [bufLoop_eq specifier large, List.append_nil, ← digitByte_zero specifier,
    replicate_append_numeral, integerDigits]
  congr 1
  split
  · rename_i zero
    rw [zero] at printed ⊢
    simp only [Nat.log_zero_right, Nat.digits_zero, List.length_nil] at printed ⊢
    omega
  · rename_i positive
    rw [Nat.length_digits _ _ large positive]
    omega

/-- **A conversion of an integer** prints its prefix and its digits. Spaces stand before them
without the flag `0`, zeros between them with the flag `0` and without the flag `-`, and spaces
after them with the flag `-`. -/
theorem convertInteger_flatten :
    (convertInteger spec args specifier value negative).calls.flatten =
      (if spec.flags.zero then []
        else List.replicate (integerPad spec specifier value negative) 0x20) ++
      integerPrefix spec.flags negative specifier ++
      (if spec.flags.zero ∧ !spec.flags.minus then
        List.replicate (integerPad spec specifier value negative) 0x30 else []) ++
      integerDigits spec specifier value ++
      (if spec.flags.minus then
        List.replicate (integerPad spec specifier value negative) 0x20 else []) := by
  have zeros : ∀ printed length : Nat,
      (if printed > length then List.replicate (printed - length) [(0x30 : UInt8)] else []).flatten =
        List.replicate (printed - length) 0x30 := by
    intro printed length
    split
    · exact List.flatten_replicate_singleton
    · rw [Nat.sub_eq_zero_of_le (by omega)]
      rfl
  have space : ((0x20 : UInt8) = 0x30) = False := by decide
  have zero : ((0x30 : UInt8) = 0x20) = False := by decide
  rw [integerDigits_eq]
  simp only [convertInteger, List.flatten_append, zeros, integerPrinted, integerPad]
  cases spec.flags.zero with
  | true =>
      cases spec.flags.minus <;>
        simp only [if_true, zero, if_false, Bool.not_true, Bool.not_false, and_true, and_false,
          Bool.false_eq_true, List.flatten_nil, List.flatten_cons, List.flatten_replicate_singleton,
          List.append_nil, List.nil_append, List.append_assoc]
  | false =>
      cases spec.flags.minus <;>
        simp only [if_true, space, if_false, false_and, Bool.false_eq_true, List.flatten_nil,
          List.flatten_cons, List.flatten_replicate_singleton, List.append_nil, List.append_assoc]

theorem integerPad_of_width_zero {spec : Spec} (narrow : spec.width = 0) :
    integerPad spec specifier value negative = 0 := by
  rw [integerPad, padLength_eq_sub, narrow, Nat.zero_sub]

/-- Without a width there is nothing but the prefix and the digits. -/
theorem convertInteger_bare {spec : Spec} (narrow : spec.width = 0) :
    (convertInteger spec args specifier value negative).calls.flatten =
      integerPrefix spec.flags negative specifier ++ integerDigits spec specifier value := by
  rw [convertInteger_flatten, integerPad_of_width_zero specifier value negative narrow]
  simp

theorem convertInteger_written :
    (convertInteger spec args specifier value negative).written =
      bufLength (integerBase specifier) value.toNat := rfl

/-! ## The arrays -/

/-- The writes of a turn lie inside `prefix` and `buf`. -/
def Emission.Inside (emission : Emission) : Prop :=
  (∀ index ∈ emission.prefixWrites, index < 3) ∧ ∀ index ∈ emission.bufWrites, index < 21

theorem Emission.Inside.of_no_writes (calls : List (List UInt8)) (args written : Nat) :
    Emission.Inside ⟨calls, args, written, [], []⟩ :=
  ⟨List.forall_mem_nil _, List.forall_mem_nil _⟩

/-- The prefix has a sign. -/
def Signed (flags : Flags) (negative : Bool) : Prop :=
  negative = true ∨ flags.plus = true ∨ flags.space = true

theorem integerPrefix_length :
    (integerPrefix spec.flags negative specifier).length < 3 ↔
      ¬ (Signed spec.flags negative ∧ spec.flags.hash = true ∧
        (specifier = 0x78 ∨ specifier = 0x58)) := by
  obtain ⟨⟨hash, minus, plus, space, zero⟩, width, precision, length⟩ := spec
  simp only [integerPrefix, Signed]
  by_cases hex : specifier = 0x78 ∨ specifier = 0x58
  · cases negative <;> cases plus <;> cases space <;> cases hash <;> simp [hex]
  · cases negative <;> cases plus <;> cases space <;> cases hash <;> simp [hex] <;> split <;> simp

/-- Twenty digits or more are enough for a value unless the base is 8. -/
theorem lt_pow_integerBase_iff {room : Nat} (many : 20 ≤ room) :
    value.toNat < integerBase specifier ^ room ↔
      ¬ (specifier = 0x6F ∧ 8 ^ room ≤ value.toNat) := by
  have enough : ∀ base, 10 ≤ base → value.toNat < base ^ room := by
    intro base large
    have decimal : 2 ^ 64 ≤ 10 ^ 20 := by decide
    calc value.toNat < 2 ^ 64 := value.isLt
      _ ≤ 10 ^ 20 := decimal
      _ ≤ 10 ^ room := Nat.pow_le_pow_right (by decide) many
      _ ≤ base ^ room := Nat.pow_le_pow_left large room
  rw [integerBase]
  split
  · rename_i hex
    have other : specifier ≠ 0x6F := by
      rintro rfl
      exact absurd hex (by decide)
    exact iff_of_true (enough 16 (by decide)) fun octal => other octal.1
  · split
    · rename_i octal
      rw [and_iff_right octal, Nat.not_le]
    · rename_i other
      exact iff_of_true (enough 10 (by decide)) fun octal => other octal.1

theorem bufLength_lt_iff :
    bufLength (integerBase specifier) value.toNat < 21 ↔
      ¬ (specifier = 0x6F ∧ 2 ^ 60 ≤ value.toNat) := by
  have octal : 2 ^ 60 = 8 ^ 20 := by decide
  rw [Nat.lt_succ_iff, bufLength_le_iff_lt_pow (one_lt_integerBase specifier) value.isLt
    (by decide), lt_pow_integerBase_iff specifier value (Nat.le_refl 20), octal]

/-- **The arrays are large enough** unless a sign and `0x` are put into the prefix, or an octal
value has more than 20 digits. -/
theorem convertInteger_inside_iff :
    (convertInteger spec args specifier value negative).Inside ↔
      ¬ (Signed spec.flags negative ∧ spec.flags.hash = true ∧
        (specifier = 0x78 ∨ specifier = 0x58)) ∧
      ¬ (specifier = 0x6F ∧ 2 ^ 60 ≤ value.toNat) := by
  rw [← integerPrefix_length, ← bufLength_lt_iff]
  simp only [Emission.Inside, convertInteger, List.mem_range, List.mem_append, List.mem_reverse,
    List.mem_singleton]
  constructor
  · rintro ⟨prefixInside, bufInside⟩
    exact ⟨prefixInside _ (Nat.lt_succ_self _), bufInside _ (.inr rfl)⟩
  · rintro ⟨prefixShort, bufShort⟩
    refine ⟨fun index below => by omega, fun index place => ?_⟩
    rcases place with below | rfl
    · omega
    · exact bufShort

end Printed

end VineyardLoader
