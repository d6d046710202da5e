import VineyardLoader.Foundation.Memory
import VineyardLoader.Foundation.Walks

/-!
# Strings of 16-bit units

The strings of the firmware are units of two bytes, closed by a zero unit. `efi_strlen` counts
the units before it (`efiStrlen_eq_some_iff`).
-/

set_option autoImplicit false

namespace VineyardLoader

/-- The loop of `efi_strlen`. -/
def efiStrlenLoop (mem : Memory) (str : Nat) : Nat → Nat → Option Nat
  | 0, _ => none
  | fuel + 1, ret =>
      if mem.loadLE (str + 2 * ret) 2 = 0 then some ret else efiStrlenLoop mem str fuel (ret + 1)

/-- `efi_strlen`. A string that does not end in the whole address space has no length. -/
def efiStrlen (mem : Memory) (str : Nat) : Option Nat := efiStrlenLoop mem str (2 ^ 64) 0

/-- Memory holds a string of so many units that are not zero, and a zero unit after them. -/
structure HoldsText (mem : Memory) (str length : Nat) : Prop where
  inner : ∀ i, i < length → mem.loadLE (str + 2 * i) 2 ≠ 0
  ends : mem.loadLE (str + 2 * length) 2 = 0

variable {mem : Memory} {str length : Nat}

/-- The loop of `efi_strlen` is a walk over the units. -/
theorem efiStrlenLoop_eq (fuel : Nat) :
    ∀ ret, efiStrlenLoop mem str fuel ret =
      walkUntil (fun index => mem.loadLE (str + 2 * index) 2 = 0) (· + 1) fuel ret := by
  induction fuel with
  | zero => exact fun _ => rfl
  | succ fuel ih =>
      intro ret
      rw [efiStrlenLoop, walkUntil, ih]

/-- **`efi_strlen` counts the units** before the zero unit. -/
theorem efiStrlen_eq_some_iff :
    efiStrlen mem str = some length ↔ length < 2 ^ 64 ∧ HoldsText mem str length := by
  have count : ∀ k, (· + 1)^[k] 0 = k := by
    intro k
    induction k with
    | zero => rfl
    | succ k ih => rw [Function.iterate_succ_apply', ih]
  rw [efiStrlen, efiStrlenLoop_eq, walkUntil_eq_some_iff]
  constructor
  · rintro ⟨turns, below, ends, rfl⟩
    rw [count]
    refine ⟨below, fun i inside => ?_, ?_⟩
    · have going := ends.before i inside
      rwa [count] at going
    · have ended := ends.ended
      rwa [count] at ended
  · rintro ⟨below, holds⟩
    refine ⟨length, below, ⟨?_, fun i inside => ?_⟩, count length⟩
    · rw [count]
      exact holds.ends
    · rw [count]
      exact holds.inner i inside

end VineyardLoader
