import Mathlib.Order.BoundedOrder.Basic
import Mathlib.Order.Basic
import Mathlib.Order.Minimal
import Mathlib.Tactic.Common

/-!
# Scans that keep a candidate

A scan over a sequence keeps a candidate until an element is not below it, which then takes its
place. In a linear order this finds a greatest element. In a partial order an element that is
not below the candidate need not be above it, and elements that the scan left behind may be.

The scan settles on the first element that no later one exceeds (`settles_scanKeep`). There is
only one such element (`Settles.unique`), and it is maximal exactly when it is not below one of
those before it (`Settles.maximal_iff`).
-/

set_option autoImplicit false

namespace VineyardLoader

section Scans

variable {α : Type*}

/-- The index at which a scan of the elements from an index on ends, with its candidate so far. -/
def scanKeep [LE α] [DecidableLE α] (value : Nat → α) : Nat → Nat → α → Nat → Nat
  | 0, _, _, selection => selection
  | remaining + 1, i, candidate, selection =>
      if value i ≤ candidate then scanKeep value remaining (i + 1) candidate selection
      else scanKeep value remaining (i + 1) (value i) i

/-- Of so many elements, this is the first that every later one is below. -/
structure Settles [LE α] (value : Nat → α) (count s : Nat) : Prop where
  inside : s < count
  later : ∀ j, s < j → j < count → value j ≤ value s
  first : ∀ i, i < s → ∃ j, i < j ∧ j < count ∧ ¬ value j ≤ value i

section Preorder

variable [Preorder α] {value : Nat → α} {count s : Nat}

/-- There is only one. -/
theorem Settles.unique {other : Nat} (settles : Settles value count s)
    (also : Settles value count other) : s = other := by
  rcases Nat.lt_trichotomy s other with less | equal | more
  · obtain ⟨j, after, inside, exceeds⟩ := also.first s less
    exact absurd (settles.later j after inside) exceeds
  · exact equal
  · obtain ⟨j, after, inside, exceeds⟩ := settles.first other more
    exact absurd (also.later j after inside) exceeds

/-- One element alone. -/
theorem Settles.one : Settles value 1 0 where
  inside := Nat.one_pos
  later j after below := by omega
  first i below := absurd below (Nat.not_lt_zero i)

/-- A next element below the settled one changes nothing. -/
theorem Settles.keep (settles : Settles value count s) (below : value count ≤ value s) :
    Settles value (count + 1) s where
  inside := Nat.lt_succ_of_lt settles.inside
  later j after inside := by
    rcases Nat.lt_succ_iff_lt_or_eq.mp inside with before | rfl
    · exact settles.later j after before
    · exact below
  first i before := by
    obtain ⟨j, after, inside, exceeds⟩ := settles.first i before
    exact ⟨j, after, Nat.lt_succ_of_lt inside, exceeds⟩

/-- Any other next element takes its place. -/
theorem Settles.replace (settles : Settles value count s) (exceeds : ¬ value count ≤ value s) :
    Settles value (count + 1) count where
  inside := Nat.lt_succ_self count
  later j after inside := absurd after (Nat.not_lt.mpr (Nat.le_of_lt_succ inside))
  first i before := by
    rcases Nat.lt_trichotomy i s with earlier | rfl | between
    · obtain ⟨j, after, inside, more⟩ := settles.first i earlier
      exact ⟨j, after, Nat.lt_succ_of_lt inside, more⟩
    · exact ⟨count, before, Nat.lt_succ_self count, exceeds⟩
    · have below := settles.later i between before
      exact ⟨count, before, Nat.lt_succ_self count, fun less => exceeds (less.trans below)⟩

/-- **A scan goes on from a settled element to a settled element.** -/
theorem settles_scanKeep [DecidableLE α] (remaining : Nat) :
    ∀ {count s : Nat}, Settles value count s →
      Settles value (count + remaining) (scanKeep value remaining count (value s) s) := by
  induction remaining with
  | zero => exact fun settles => settles
  | succ remaining ih =>
      intro count s settles
      rw [scanKeep, ← Nat.succ_add_eq_add_succ]
      split
      · rename_i below
        exact ih (settles.keep below)
      · rename_i exceeds
        exact ih (settles.replace exceeds)

/-- **The settled element is maximal** exactly when it is not below one before it. -/
theorem Settles.maximal_iff (settles : Settles value count s) :
    Maximal (fun x => ∃ i, i < count ∧ value i = x) (value s) ↔
      ∀ i, i < s → ¬ value s < value i := by
  constructor
  · intro maximal i before less
    exact less.not_ge (maximal.le_of_ge ⟨i, before.trans settles.inside, rfl⟩ less.le)
  · intro undominated
    refine ⟨⟨s, settles.inside, rfl⟩, ?_⟩
    rintro _ ⟨i, inside, rfl⟩ above
    rcases Nat.lt_trichotomy i s with earlier | rfl | after
    · by_contra less
      exact undominated i earlier (lt_of_le_not_ge above less)
    · exact le_refl _
    · exact settles.later i after inside

end Preorder

/-- **A scan with the least candidate** settles. -/
theorem settles_scanKeep_bot [PartialOrder α] [OrderBot α] [DecidableLE α] (value : Nat → α)
    (count : Nat) : Settles value (count + 1) (scanKeep value (count + 1) 0 ⊥ 0) := by
  have start : scanKeep value (count + 1) 0 ⊥ 0 = scanKeep value count 1 (value 0) 0 := by
    rw [scanKeep]
    split
    · rename_i below
      rw [le_bot_iff.mp below]
    · rfl
  rw [start, Nat.add_comm]
  exact settles_scanKeep count .one

end Scans

end VineyardLoader
