import Mathlib.Algebra.BigOperators.Group.Finset.Basic
import Mathlib.Tactic.Common

/-!
# Odometers

An odometer shows a number on wheels with the digits of one base, and the wheel at place zero is
the lowest (`wheel`). The wheels below a count show the number up to full turns (`sum_wheels`).

A step of the odometer moves a wheel exactly when all wheels below it are at their last digit
(`wheel_succ`). The highest wheel that is needed does not turn round (`wheel_succ_top`).
-/

set_option autoImplicit false

namespace VineyardLoader

/-- The digit of a number on the wheel at a place. -/
def wheel (base number place : Nat) : Nat := number / base ^ place % base

/-- The next step carries into a place: the wheels below it are at their last digit. -/
def Carries (base number place : Nat) : Prop :=
  ∀ lower < place, wheel base number lower = base - 1

instance (base number place : Nat) : Decidable (Carries base number place) :=
  inferInstanceAs (Decidable (∀ lower < place, _))

section Odometer

variable {base : Nat}

/-! ## Reading -/

/-- The wheels below a count show the number up to full turns. -/
theorem sum_wheels (base number count : Nat) :
    ∑ place ∈ Finset.range count, wheel base number place * base ^ place =
      number % base ^ count := by
  induction count with
  | zero => rw [Finset.sum_range_zero, Nat.pow_zero, Nat.mod_one]
  | succ count ih => rw [Finset.sum_range_succ, ih, Nat.mod_pow_succ, wheel, Nat.mul_comm]

/-- The highest wheel that a number needs does not turn round. -/
theorem wheel_top {number place : Nat} (fits : number < base ^ (place + 1)) :
    wheel base number place = number / base ^ place := by
  rw [Nat.pow_succ] at fits
  exact Nat.mod_eq_of_lt (Nat.div_lt_of_lt_mul fits)

/-! ## Stepping -/

theorem carries_zero {number : Nat} : Carries base number 0 :=
  fun _ below => absurd below (Nat.not_lt_zero _)

theorem carries_succ {number place : Nat} :
    Carries base number (place + 1) ↔
      Carries base number place ∧ wheel base number place = base - 1 := by
  constructor
  · intro carries
    exact ⟨fun lower below => carries lower (Nat.lt_succ_of_lt below),
      carries place (Nat.lt_succ_self _)⟩
  · rintro ⟨carries, last⟩ lower below
    rcases Nat.lt_succ_iff_lt_or_eq.mp below with under | rfl
    · exact carries lower under
    · exact last

/-- A step carries into a place when the next number is divisible by its weight. -/
theorem carries_iff_dvd (positive : 0 < base) (number place : Nat) :
    Carries base number place ↔ base ^ place ∣ number + 1 := by
  induction place with
  | zero => exact iff_of_true carries_zero (one_dvd _)
  | succ place ih =>
      rw [carries_succ, ih, wheel, Nat.mod_eq_sub_iff Nat.one_pos positive, Nat.pow_succ]
      constructor
      · rintro ⟨turns, carry⟩
        rw [← Nat.succ_div_of_dvd turns] at carry
        exact (Nat.dvd_div_iff_mul_dvd turns).mp carry
      · intro weight
        have turns : base ^ place ∣ number + 1 := dvd_of_mul_right_dvd weight
        refine ⟨turns, ?_⟩
        rw [← Nat.succ_div_of_dvd turns]
        exact (Nat.dvd_div_iff_mul_dvd turns).mpr weight

theorem succ_div_pow (positive : 0 < base) (number place : Nat) :
    (number + 1) / base ^ place =
      number / base ^ place + if Carries base number place then 1 else 0 := by
  rw [Nat.succ_div]
  simp only [carries_iff_dvd positive]

/-- **A step moves a wheel exactly when all wheels below it are at their last digit.** -/
theorem wheel_succ (positive : 0 < base) (number place : Nat) :
    wheel base (number + 1) place =
      if Carries base number place then (wheel base number place + 1) % base
      else wheel base number place := by
  rw [wheel, succ_div_pow positive]
  split
  · rw [wheel, Nat.mod_add_mod]
  · rfl

/-- The highest wheel that is needed after the step does not turn round either. -/
theorem wheel_succ_top (positive : 0 < base) {number place : Nat}
    (fits : number + 1 < base ^ (place + 1)) :
    wheel base (number + 1) place =
      if Carries base number place then wheel base number place + 1
      else wheel base number place := by
  rw [wheel_top fits, wheel_top (Nat.lt_of_succ_lt fits), succ_div_pow positive]
  split <;> rfl

end Odometer

end VineyardLoader
