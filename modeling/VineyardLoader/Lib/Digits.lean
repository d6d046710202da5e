import VineyardLoader.Lib.IsoC

/-!
# The digits of an integer

`vcbprintf` makes the digits of a value in two loops. The first counts them by dividing until
nothing of the base is left, the second divides again and fills an array from the counted place
down to its beginning. They agree on the number of digits for every value of 64 bits: the array
begins with the one representation of the value, and nothing of the value is left
(`bufFill_representation`).

The array has room for 21 digits. That is enough in every base but 8, where a value of 2^63 or
more has 22, and there the second loop begins outside of the array (`digitsRight_iff`).
-/

set_option autoImplicit false

namespace VineyardLoader

/-! ## The filling loop on the array -/

/-- `char buf[21]`. -/
abbrev Buf := Vector UInt8 21

/-- The loop that fills `buf`, with what is left of the value. A write outside of the array has
no meaning. -/
def bufFill (conv : List UInt8) (base : Nat) : Nat → Nat → Buf → Option (Buf × Nat)
  | 0, value, buf => some (buf, value)
  | i + 1, value, buf =>
      if inside : i < 21 then
        bufFill conv base i (value / base) (buf.set i (conv.getD (value % base) 0) inside)
      else none

section Fill

variable (conv : List UInt8) (base : Nat)

theorem bufLoop_append : ∀ (i value : Nat) (buf : List UInt8),
    bufLoop conv base i value buf = bufLoop conv base i value [] ++ buf
  | 0, _, _ => rfl
  | i + 1, value, buf => by
      rw [bufLoop, bufLoop, bufLoop_append i, bufLoop_append i (value / base) [_],
        List.append_assoc, List.singleton_append]

/-- Within the array, the loop puts its digits in front and divides the value by a power. -/
theorem bufFill_eq_some : ∀ {i : Nat} (value : Nat) (buf : Buf), i ≤ 21 →
    ∃ after, bufFill conv base i value buf = some (after, value / base ^ i) ∧
      after.toList = bufLoop conv base i value [] ++ buf.toList.drop i
  | 0, value, buf, _ => ⟨buf, by rw [bufFill, Nat.pow_zero, Nat.div_one], rfl⟩
  | i + 1, value, buf, inside => by
      obtain ⟨after, run, text⟩ := bufFill_eq_some (i := i) (value / base)
        (buf.set i (conv.getD (value % base) 0) inside) (Nat.le_of_succ_le inside)
      refine ⟨after, ?_, ?_⟩
      · rw [bufFill, dif_pos (Nat.lt_of_succ_le inside), run, Nat.div_div_eq_div_mul,
          Nat.pow_succ']
      · have place : (buf.toList.set i (conv.getD (value % base) 0)).drop i =
            conv.getD (value % base) 0 :: buf.toList.drop (i + 1) := by
          rw [List.drop_eq_getElem_cons (by simpa using inside), List.getElem_set_self,
            List.drop_set_of_lt (Nat.lt_succ_self i)]
        rw [text, Vector.toList_set, place, bufLoop, bufLoop_append conv base i (value / base) [_],
          List.append_assoc, List.singleton_append]

variable {conv base} in
/-- With more digits than the array has room for, the first write is outside. -/
theorem bufFill_eq_none {i : Nat} (outside : 21 < i) (value : Nat) (buf : Buf) :
    bufFill conv base i value buf = none := by
  obtain ⟨i, rfl⟩ := Nat.exists_eq_add_of_le' (Nat.lt_of_le_of_lt (Nat.zero_le 21) outside)
  rw [bufFill, dif_neg (by omega)]

end Fill

/-! ## Both loops -/

section Loops

variable {specifier : UInt8} {base : Nat} (value : BitVec 64)

/-- The count of the digits is the length of the representation. -/
theorem bufLength_eq_representation (large : 1 < base) :
    bufLength base value.toNat = (representation base value.toNat).length := by
  rw [bufLength_eq large value.isLt, representation_length large]

/-- As many divisions as there are digits leave nothing of the value. -/
theorem div_pow_bufLength (large : 1 < base) :
    value.toNat / base ^ bufLength base value.toNat = 0 := by
  rw [bufLength_eq large value.isLt]
  exact Nat.div_eq_of_lt (Nat.lt_pow_succ_log_self large value.toNat)

/-- **The loops agree**: within the array, the digits that were counted are those of the
representation, and nothing of the value is left. -/
theorem bufFill_representation (large : 1 < base) (buf : Buf)
    (room : bufLength base value.toNat ≤ 21) :
    ∃ after, bufFill (convDigits specifier) base (bufLength base value.toNat) value.toNat buf =
        some (after, 0) ∧
      after.toList.take (bufLength base value.toNat) =
        (representation base value.toNat).map (digitByte specifier) := by
  obtain ⟨after, run, text⟩ := bufFill_eq_some (convDigits specifier) base value.toNat buf room
  have digits : bufLoop (convDigits specifier) base (bufLength base value.toNat) value.toNat [] =
      (representation base value.toNat).map (digitByte specifier) := by
    rw [bufLength_eq large value.isLt, bufLoop_eq specifier large, List.append_nil,
      numeral_eq_representation]
  refine ⟨after, ?_, ?_⟩
  · rw [run, div_pow_bufLength value large]
  · rw [text, digits, List.take_append_of_le_length, List.take_of_length_le]
    · rw [List.length_map, bufLength_eq_representation value large]
    · rw [List.length_map, bufLength_eq_representation value large]

/-- The digits have room in the array unless the base is 8 and there are 22 of them. -/
theorem bufLength_le_iff :
    bufLength (integerBase specifier) value.toNat ≤ 21 ↔
      ¬ (specifier = 0x6F ∧ 2 ^ 63 ≤ value.toNat) := by
  have octal : 2 ^ 63 = 8 ^ 21 := by decide
  rw [bufLength_le_iff_lt_pow (one_lt_integerBase specifier) value.isLt (by decide),
    lt_pow_integerBase_iff specifier value (Nat.le_succ 20), octal]

end Loops

/-! ## Signed values -/

/-- The sign is put in front of a signed value exactly if it is negative. -/
theorem integerPrefix_minus_iff (flags : Flags) (negative : Bool) {specifier : UInt8}
    (signed : IsSigned specifier) :
    integerPrefix flags negative specifier = [0x2D] ↔ negative = true := by
  have noHash : ¬ (flags.hash = true ∧ (specifier = 0x78 ∨ specifier = 0x58)) ∧
      ¬ (flags.hash = true ∧ specifier = 0x6F) := by
    rcases signed with rfl | rfl
    · exact ⟨fun hash => absurd hash.2 (by decide), fun hash => absurd hash.2 (by decide)⟩
    · exact ⟨fun hash => absurd hash.2 (by decide), fun hash => absurd hash.2 (by decide)⟩
  rw [integerPrefix, if_neg noHash.1, if_neg noHash.2, List.append_nil]
  cases negative with
  | true => simp
  | false =>
      refine iff_of_false ?_ Bool.false_ne_true
      rw [if_neg Bool.false_ne_true]
      split
      · decide
      · split
        · decide
        · decide

/-- What the digits denote, with the sign that is put in front of them. -/
def denoted (negative : Bool) (number : Nat) : Int :=
  if negative then -(number : Int) else number

/-- **The sign and the digits of a signed argument denote it**, the least one as well. -/
theorem denoted_eq_valueOf {word value : BitVec 64} {length : Length} {c : UInt8}
    {negative : Bool} {bits : Nat} (signed : IsSigned c) (size : vaBits length = some bits)
    (found : integerValue word length c = some (value, negative)) :
    denoted negative value.toNat = valueOf c word bits := by
  have notPointer : c ≠ 0x70 := by
    rintro rfl
    exact absurd signed (by decide)
  obtain ⟨sign, number⟩ := integerValue_eq size notPointer found
  rw [denoted, number]
  cases negative with
  | true =>
      have below := sign.mp rfl
      rw [if_pos rfl]
      omega
  | false =>
      have above : ¬ valueOf c word bits < 0 := fun below => Bool.noConfusion (sign.mpr below)
      rw [if_neg Bool.false_ne_true]
      omega

/-! ## When the digits are right -/

/-- The digits of a value are right: they are its only representation in the base, as many as
were counted, at the beginning of the array, with nothing of the value left; and where the value
is that of a signed argument, they denote it after a sign. -/
structure DigitsRight (specifier : UInt8) (value : BitVec 64) (buf : Buf) : Prop where
  filled : ∃ digits after,
    Represents (integerBase specifier) value.toNat digits ∧
    (∀ other, Represents (integerBase specifier) value.toNat other → other = digits) ∧
    bufLength (integerBase specifier) value.toNat = digits.length ∧
    bufFill (convDigits specifier) (integerBase specifier)
      (bufLength (integerBase specifier) value.toNat) value.toNat buf = some (after, 0) ∧
    after.toList.take digits.length = digits.map (digitByte specifier)
  signed : IsSigned specifier → ∀ (word : BitVec 64) (length : Length) (bits : Nat)
    (flags : Flags) (negative : Bool), vaBits length = some bits →
      integerValue word length specifier = some (value, negative) →
        (integerPrefix flags negative specifier = [0x2D] ↔ valueOf specifier word bits < 0) ∧
        ∀ digits, Represents (integerBase specifier) value.toNat digits →
          denoted negative (Nat.ofDigits (integerBase specifier) digits.reverse) =
            valueOf specifier word bits

/-- **The digits of a value are right** exactly if it is not an octal value of 2^63 or more. -/
theorem digitsRight_iff (specifier : UInt8) (value : BitVec 64) (buf : Buf) :
    DigitsRight specifier value buf ↔ ¬ (specifier = 0x6F ∧ 2 ^ 63 ≤ value.toNat) := by
  have large := one_lt_integerBase specifier
  rw [← bufLength_le_iff]
  constructor
  · rintro ⟨⟨digits, after, -, -, -, run, -⟩, -⟩
    by_contra outside
    rw [bufFill_eq_none (Nat.lt_of_not_le outside)] at run
    cases run
  · intro room
    obtain ⟨after, run, text⟩ := bufFill_representation value large buf room
    refine ⟨⟨representation (integerBase specifier) value.toNat, after,
      represents_representation large _, fun other same => (represents_iff large).mp same,
      bufLength_eq_representation value large, run, ?_⟩, ?_⟩
    · rw [← bufLength_eq_representation value large, text]
    · intro signed word length bits flags negative size found
      have notPointer : specifier ≠ 0x70 := by
        rintro rfl
        exact absurd signed (by decide)
      refine ⟨(integerPrefix_minus_iff flags negative signed).trans
        (integerValue_eq size notPointer found).1, fun digits represents => ?_⟩
      rw [represents.value]
      exact denoted_eq_valueOf signed size found

/-- The least signed argument. -/
theorem digitsRight_sample : DigitsRight 0x64 (BitVec.ofNat 64 (2 ^ 63)) (Vector.replicate 21 0) :=
  (digitsRight_iff 0x64 _ _).mpr fun octal => absurd octal.1 (by decide)

/-- The largest octal value has 22 digits. -/
theorem octalMax_not_digitsRight :
    ¬ ∀ (specifier : UInt8) (value : BitVec 64) (buf : Buf), DigitsRight specifier value buf := by
  intro always
  obtain ⟨⟨digits, after, -, -, -, run, -⟩, -⟩ :=
    always 0x6F (BitVec.allOnes 64) (Vector.replicate 21 0)
  have outside : bufFill (convDigits 0x6F) (integerBase 0x6F)
      (bufLength (integerBase 0x6F) (BitVec.allOnes 64).toNat) (BitVec.allOnes 64).toNat
      (Vector.replicate 21 0) = none := bufFill_eq_none (by decide) _ _
  rw [outside] at run
  cases run

end VineyardLoader
