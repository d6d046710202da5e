import Mathlib.Data.Nat.Digits.Lemmas

/-!
# Numerals

A numeral of a number in a base is its digits, the highest first, each as a symbol. Zeros may
stand before them. Where the symbols of the digits are different, a numeral with any zeros
before it is that of one number only (`numeral_injective`). The number zero has no digits.

A representation gives zero one digit and has no other zero in front. Every number has exactly
one (`represents_iff`).
-/

set_option autoImplicit false

namespace VineyardLoader

section Numerals

variable {α : Type} (symbol : Nat → α) (base : Nat)

/-- The numeral of a number after some zeros. -/
def numeral (zeros number : Nat) : List α :=
  (List.replicate zeros 0 ++ (Nat.digits base number).reverse).map symbol

variable {base}

theorem numeral_length (zeros number : Nat) :
    (numeral symbol base zeros number).length = zeros + (Nat.digits base number).length := by
  simp [numeral]

theorem numeral_eq_append (zeros number : Nat) :
    numeral symbol base zeros number =
      List.replicate zeros (symbol 0) ++ numeral symbol base 0 number := by
  simp [numeral]

theorem numeral_zero (zeros : Nat) :
    numeral symbol base zeros 0 = List.replicate zeros (symbol 0) := by
  simp [numeral]

/-- Zeros before a numeral are zeros of it. -/
theorem replicate_append_numeral (more zeros number : Nat) :
    List.replicate more (symbol 0) ++ numeral symbol base zeros number =
      numeral symbol base (more + zeros) number := by
  rw [numeral_eq_append, numeral_eq_append symbol (more + zeros) number, ← List.append_assoc,
    List.replicate_append_replicate]

/-- The digits of a numeral give the number back. -/
theorem ofDigits_numeral (zeros number : Nat) :
    Nat.ofDigits base (List.replicate zeros 0 ++ (Nat.digits base number).reverse).reverse =
      number := by
  rw [List.reverse_append, List.reverse_reverse, List.reverse_replicate,
    Nat.ofDigits_append_replicate_zero, Nat.ofDigits_digits]

theorem numeral_digit_lt (large : 1 < base) {zeros number digit : Nat}
    (member : digit ∈ List.replicate zeros 0 ++ (Nat.digits base number).reverse) :
    digit < base := by
  rcases List.mem_append.mp member with zero | rest
  · rw [List.eq_of_mem_replicate zero]
    omega
  · exact Nat.digits_lt_base large (List.mem_reverse.mp rest)

/-- Lists of numbers are equal if their symbols are, where the symbols of the numbers are
different. -/
theorem eq_of_map_symbol {symbol : Nat → α} (different : Set.InjOn symbol (Set.Iio base)) :
    ∀ {first second : List Nat}, (∀ digit ∈ first, digit < base) →
      (∀ digit ∈ second, digit < base) → first.map symbol = second.map symbol → first = second := by
  intro first
  induction first with
  | nil =>
      intro second _ _ same
      exact (List.map_eq_nil_iff.mp same.symm).symm
  | cons digit first ih =>
      intro second firstLt secondLt same
      cases second with
      | nil => cases same
      | cons other second =>
          rw [List.map_cons, List.map_cons, List.cons.injEq] at same
          rw [different (firstLt _ List.mem_cons_self) (secondLt _ List.mem_cons_self) same.1,
            ih (fun digit member => firstLt digit (List.mem_cons_of_mem _ member))
              (fun digit member => secondLt digit (List.mem_cons_of_mem _ member)) same.2]

/-- **A numeral is that of one number only.** -/
theorem numeral_injective {symbol : Nat → α} (large : 1 < base)
    (different : Set.InjOn symbol (Set.Iio base)) {zeros number otherZeros other : Nat}
    (same : numeral symbol base zeros number = numeral symbol base otherZeros other) :
    number = other := by
  have digits := eq_of_map_symbol different (fun _ member => numeral_digit_lt large member)
    (fun _ member => numeral_digit_lt large member) same
  have first : Nat.ofDigits base
      (List.replicate zeros 0 ++ (Nat.digits base number).reverse).reverse = number :=
    ofDigits_numeral zeros number
  rw [← first, digits, ofDigits_numeral]

theorem numeral_eq_iff {symbol : Nat → α} (large : 1 < base)
    (different : Set.InjOn symbol (Set.Iio base)) {zeros number otherZeros other : Nat} :
    numeral symbol base zeros number = numeral symbol base otherZeros other ↔
      number = other ∧ zeros = otherZeros := by
  constructor
  · intro same
    have numbers := numeral_injective large different same
    have length := congrArg List.length same
    rw [numeral_length, numeral_length, numbers] at length
    exact ⟨numbers, by omega⟩
  · rintro ⟨rfl, rfl⟩
    rfl

/-- A numeral does not depend on symbols of more than its base. -/
theorem numeral_congr {first second : Nat → α} (large : 1 < base)
    (same : ∀ digit < base, first digit = second digit) (zeros number : Nat) :
    numeral first base zeros number = numeral second base zeros number := by
  rw [numeral, numeral, List.map_inj_left]
  intro digit member
  exact same digit (numeral_digit_lt large member)

end Numerals

/-! ## Representations -/

/-- The digits represent the number in the base, the highest first, with no zero in front but
that of zero itself. -/
structure Represents (base number : Nat) (digits : List Nat) : Prop where
  below : ∀ digit ∈ digits, digit < base
  nonempty : digits ≠ []
  leading : digits.head? = some 0 → digits = [0]
  value : Nat.ofDigits base digits.reverse = number

/-- The representation of a number. -/
def representation (base number : Nat) : List Nat :=
  if number = 0 then [0] else (Nat.digits base number).reverse

section Representations

variable {base number : Nat} (large : 1 < base)

include large

theorem represents_representation (number : Nat) :
    Represents base number (representation base number) := by
  unfold representation
  split
  · rename_i zero
    subst zero
    exact ⟨fun digit member => by rw [List.mem_singleton.mp member]; omega,
      List.cons_ne_nil 0 [], fun _ => rfl, rfl⟩
  · rename_i positive
    have present : Nat.digits base number ≠ [] := Nat.digits_ne_nil_iff_ne_zero.mpr positive
    refine ⟨fun digit member => Nat.digits_lt_base large (List.mem_reverse.mp member),
      fun none => present (List.reverse_eq_nil_iff.mp none), fun front => ?_, ?_⟩
    · rw [List.head?_reverse, List.getLast?_eq_getLast_of_ne_nil present] at front
      exact absurd (Option.some.inj front) (Nat.getLast_digit_ne_zero base positive)
    · rw [List.reverse_reverse, Nat.ofDigits_digits]

/-- **A number has one representation.** -/
theorem represents_iff {digits : List Nat} :
    Represents base number digits ↔ digits = representation base number := by
  constructor
  · rintro ⟨below, nonempty, leading, rfl⟩
    obtain ⟨front, rest, rfl⟩ := List.exists_cons_of_ne_nil nonempty
    by_cases zero : front = 0
    · subst zero
      rw [leading rfl]
      rfl
    · have whole : Nat.digits base (Nat.ofDigits base (front :: rest).reverse) =
          (front :: rest).reverse := by
        refine Nat.digits_ofDigits base large _
          (fun digit member => below digit (List.mem_reverse.mp member)) fun present => ?_
        rw [List.getLast_reverse]
        exact zero
      have positive : Nat.ofDigits base (front :: rest).reverse ≠ 0 := by
        intro none
        rw [none, Nat.digits_zero] at whole
        exact absurd whole.symm (by simp)
      rw [representation, if_neg positive, whole, List.reverse_reverse]
  · rintro rfl
    exact represents_representation large number

/-- The representation of a number is as long as its logarithm and one. -/
theorem representation_length (number : Nat) :
    (representation base number).length = Nat.log base number + 1 := by
  unfold representation
  split
  · rename_i zero
    simp [zero]
  · rename_i positive
    rw [List.length_reverse, Nat.length_digits base number large positive]

end Representations

/-- A numeral with one digit for zero is the representation in symbols. -/
theorem numeral_eq_representation {α : Type} (symbol : Nat → α) (base number : Nat) :
    numeral symbol base (if number = 0 then 1 else 0) number =
      (representation base number).map symbol := by
  unfold representation numeral
  split
  · rename_i zero
    simp [zero]
  · simp

end VineyardLoader
