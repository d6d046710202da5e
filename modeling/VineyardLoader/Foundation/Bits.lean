import Mathlib.Data.Nat.Bitwise
import Mathlib.Tactic.Common
import Mathlib.Tactic.Ring

/-!
# Bit fields of natural numbers

A word keeps several fields in disjoint bits. A mask of consecutive ones reads a field as
a quotient and a remainder (`and_fieldMask`), and a word made of two parts with disjoint
bits gives each part back under its mask (`or_and_left`).
-/

set_option autoImplicit false

namespace VineyardLoader

/-- The mask of `width` ones above `low` zeros. -/
def fieldMask (low width : Nat) : Nat := (2 ^ width - 1) <<< low

/-- A mask of consecutive ones reads the field and puts it back in its place. -/
theorem and_fieldMask (word low width : Nat) :
    word &&& fieldMask low width = word / 2 ^ low % 2 ^ width * 2 ^ low := by
  apply Nat.eq_of_testBit_eq
  intro bit
  rw [fieldMask, Nat.testBit_and, Nat.testBit_shiftLeft, Nat.testBit_two_pow_sub_one,
    ← Nat.shiftLeft_eq, Nat.testBit_shiftLeft, Nat.testBit_mod_two_pow,
    Nat.testBit_div_two_pow]
  by_cases above : low ≤ bit
  · rw [Nat.sub_add_cancel above]
    simp [above, Bool.and_comm]
  · simp [above]

/-- A word whose bits all lie in the field is its own field. -/
theorem and_fieldMask_of_aligned {word low width : Nat} (aligned : word % 2 ^ low = 0)
    (bounded : word < 2 ^ (low + width)) : word &&& fieldMask low width = word := by
  have small : word / 2 ^ low < 2 ^ width := by
    rw [Nat.div_lt_iff_lt_mul (Nat.two_pow_pos low), Nat.mul_comm, ← Nat.pow_add]
    exact bounded
  rw [and_fieldMask, Nat.mod_eq_of_lt small]
  exact Nat.div_mul_cancel (Nat.dvd_of_mod_eq_zero aligned)

/-- A pointer into an aligned block leads back to the block exactly when the mask covers the
block. -/
theorem add_and_fieldMask_iff {block offset low : Nat} (width : Nat) (aligned : block % 2 ^ low = 0)
    (inside : offset < 2 ^ low) :
    (block + offset) &&& fieldMask low width = block ↔ block < 2 ^ (low + width) := by
  obtain ⟨place, rfl⟩ := Nat.dvd_of_mod_eq_zero aligned
  have positive := Nat.two_pow_pos low
  rw [and_fieldMask, Nat.mul_add_div positive, Nat.div_eq_of_lt inside, Nat.add_zero, Nat.mul_comm,
    Nat.mul_left_cancel_iff positive, Nat.pow_add, Nat.mul_lt_mul_left positive,
    Nat.mod_eq_iff_lt (Nat.two_pow_pos width).ne']

/-- The complement of the lowest bits is a mask, as wide as the type it is taken in. -/
theorem toNat_not_lowMask (low width : Nat) :
    (~~~BitVec.ofNat (low + width) (2 ^ low - 1)).toNat = fieldMask low width := by
  have positive := Nat.two_pow_pos low
  have fits : 2 ^ low - 1 < 2 ^ (low + width) :=
    lt_of_lt_of_le (Nat.sub_lt positive Nat.one_pos)
      (Nat.pow_le_pow_right Nat.two_pos (Nat.le_add_right _ _))
  rw [BitVec.toNat_not, BitVec.toNat_ofNat, Nat.mod_eq_of_lt fits, fieldMask, Nat.shiftLeft_eq,
    Nat.sub_mul, Nat.one_mul, ← Nat.pow_add, Nat.add_comm width]
  omega

section Parts

variable {first second mask : Nat}

/-- A word of two parts gives the part inside the mask. -/
theorem or_and_left (inside : first &&& mask = first) (outside : second &&& mask = 0) :
    (first ||| second) &&& mask = first := by
  rw [Nat.and_or_distrib_right, inside, outside, Nat.or_zero]

/-- A part inside one mask is invisible to a disjoint mask. -/
theorem and_eq_zero_of_masks {other : Nat} (inside : first &&& mask = first)
    (apart : mask &&& other = 0) : first &&& other = 0 := by
  rw [← inside, Nat.and_assoc, apart, Nat.and_zero]

end Parts

/-- The lowest bits of a word are its remainder. -/
theorem and_lowMask (word width : Nat) : word &&& (2 ^ width - 1) = word % 2 ^ width :=
  Nat.and_two_pow_sub_one_eq_mod word width

/-- A field read by a shift and a mask. -/
theorem shiftRight_and_lowMask (word low width : Nat) :
    (word >>> low) &&& (2 ^ width - 1) = word / 2 ^ low % 2 ^ width := by
  rw [and_lowMask, Nat.shiftRight_eq_div_pow]

end VineyardLoader
