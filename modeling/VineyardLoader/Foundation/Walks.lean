import Mathlib.Data.Finset.Card
import Mathlib.Data.Finset.Range
import Mathlib.Data.Nat.Find
import Mathlib.Logic.Function.Iterate
import Mathlib.Tactic.Common

/-!
# Walks until a condition

A loop that replaces its state by the next one until a condition holds either ends after a
number of turns (`EndsAt`) or goes on for ever. Run with a budget, it gives the state in which
it ends if the budget exceeds the number of turns (`walkUntil_eq_some_iff`).

In finitely many states a walk that ends visits none of them twice, so it ends in fewer turns
than there are states (`EndsAt.lt_card`). A budget of as many turns as there are states thus
decides whether the loop ends (`walkUntil_isSome_iff`).
-/

set_option autoImplicit false

namespace VineyardLoader

section Walks

variable {σ : Type*}

/-- The walk ends after exactly so many turns. -/
structure EndsAt (done : σ → Prop) (next : σ → σ) (start : σ) (turns : Nat) : Prop where
  ended : done (next^[turns] start)
  before : ∀ k, k < turns → ¬ done (next^[k] start)

variable {done : σ → Prop} {next : σ → σ} {start final : σ} {turns fuel : Nat}

theorem EndsAt.zero (ended : done start) : EndsAt done next start 0 :=
  ⟨ended, fun _ below => absurd below (Nat.not_lt_zero _)⟩

theorem EndsAt.succ (going : ¬ done start) (rest : EndsAt done next (next start) turns) :
    EndsAt done next start (turns + 1) where
  ended := rest.ended
  before k below := by
    cases k with
    | zero => exact going
    | succ k => exact rest.before k (Nat.lt_of_succ_lt_succ below)

theorem EndsAt.tail (ends : EndsAt done next start (turns + 1)) :
    EndsAt done next (next start) turns where
  ended := ends.ended
  before k below := ends.before (k + 1) (Nat.succ_lt_succ below)

/-- A walk that comes to a state with the condition ends there or before. -/
theorem exists_endsAt (ended : done (next^[turns] start)) :
    ∃ first, EndsAt done next start first := by
  classical
  have found : ∃ first, done (next^[first] start) := ⟨turns, ended⟩
  exact ⟨Nat.find found, Nat.find_spec found, fun _ below => Nat.find_min found below⟩

/-! ## Runs within a budget -/

/-- The loop that goes to the next state until the condition holds, within a budget of tests. -/
def walkUntil (done : σ → Prop) [DecidablePred done] (next : σ → σ) : Nat → σ → Option σ
  | 0, _ => none
  | fuel + 1, state =>
      if done state then some state else walkUntil done next fuel (next state)

/-- **A run within a budget** is a walk that ends in fewer turns. -/
theorem walkUntil_eq_some_iff [DecidablePred done] :
    walkUntil done next fuel start = some final ↔
      ∃ turns, turns < fuel ∧ EndsAt done next start turns ∧ next^[turns] start = final := by
  induction fuel generalizing start with
  | zero => simp [walkUntil]
  | succ fuel ih =>
      rw [walkUntil]
      by_cases ended : done start
      · rw [if_pos ended, Option.some.injEq]
        constructor
        · rintro rfl
          exact ⟨0, Nat.succ_pos _, .zero ended, rfl⟩
        · rintro ⟨turns, -, ends, rfl⟩
          cases turns with
          | zero => rfl
          | succ turns => exact absurd ended (ends.before 0 (Nat.succ_pos _))
      · rw [if_neg ended, ih]
        constructor
        · rintro ⟨turns, below, ends, rfl⟩
          exact ⟨turns + 1, Nat.succ_lt_succ below, .succ ended ends, rfl⟩
        · rintro ⟨turns, below, ends, rfl⟩
          cases turns with
          | zero => exact absurd ends.ended ended
          | succ turns => exact ⟨turns, Nat.lt_of_succ_lt_succ below, ends.tail, rfl⟩

/-! ## Finitely many states -/

section Finite

variable {states : Finset σ} (closed : ∀ state ∈ states, next state ∈ states)
  (member : start ∈ states)
include closed member

theorem iterate_mem (k : Nat) : next^[k] start ∈ states := by
  induction k with
  | zero => exact member
  | succ k ih =>
      rw [Function.iterate_succ_apply']
      exact closed _ ih

/-- **A walk that ends visits no state twice**, so it has fewer turns than there are states. -/
theorem EndsAt.lt_card (ends : EndsAt done next start turns) : turns < states.card := by
  have distinct : ∀ {i j : Nat}, i < j → j ≤ turns → next^[i] start ≠ next^[j] start := by
    intro i j less within same
    -- from the repeated state on the walk would end earlier
    have shifted : next^[turns - j + i] start = next^[turns] start := by
      rw [Function.iterate_add_apply, same, ← Function.iterate_add_apply,
        Nat.sub_add_cancel within]
    refine ends.before (turns - j + i) (by omega) ?_
    rw [shifted]
    exact ends.ended
  have injective : Set.InjOn (fun k => next^[k] start) (Finset.range (turns + 1)) := by
    intro i inI j inJ same
    simp only [Finset.coe_range, Set.mem_Iio] at inI inJ
    rcases Nat.lt_trichotomy i j with less | equal | more
    · exact absurd same (distinct less (by omega))
    · exact equal
    · exact absurd same.symm (distinct more (by omega))
  have count := Finset.card_le_card_of_injOn (fun k => next^[k] start)
    (fun k _ => iterate_mem closed member k) injective
  rwa [Finset.card_range] at count

/-- **As many turns as there are states decide whether a loop ends.** -/
theorem walkUntil_isSome_iff [DecidablePred done] (enough : states.card ≤ fuel) :
    (∃ final, walkUntil done next fuel start = some final) ↔
      ∃ turns, done (next^[turns] start) := by
  constructor
  · rintro ⟨final, run⟩
    obtain ⟨turns, -, ends, -⟩ := walkUntil_eq_some_iff.mp run
    exact ⟨turns, ends.ended⟩
  · rintro ⟨turns, ended⟩
    obtain ⟨first, ends⟩ := exists_endsAt ended
    exact ⟨_, walkUntil_eq_some_iff.mpr
      ⟨first, Nat.lt_of_lt_of_le (ends.lt_card closed member) enough, ends, rfl⟩⟩

end Finite

end Walks

end VineyardLoader
