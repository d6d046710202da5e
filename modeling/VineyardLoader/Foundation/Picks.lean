import Mathlib.Logic.Relation
import Mathlib.Tactic.Common

/-!
# Picking the first item that works

Items are tried in order until one works. After one that failed, the items next to it that
count as more of the same are passed over. What works may depend on the items tried before.

The rule says this as steps from one tried item to the next (`PickStep`), of which there is at
most one from each (`PickStep.unique`). The loop with an index and the latest item tried picks
what the rule picks and passes over what the rule passes over (`pickLoop_spec`).

A loop may use a wider test for more of the same than it should. It then passes over nothing
that it should not exactly when the wider test holds of no next item of the right rule
(`passes_iff_of_wider`), and picks the same item (`chosen_iff_of_wider`).
-/

set_option autoImplicit false

namespace VineyardLoader

/-- An item is being tried, after others. -/
structure PickState where
  tried : List Nat
  latest : Nat

/-- The state before the first item. -/
def PickState.first : PickState := ⟨[], 0⟩

/-- The item failed, the next ones are more of the same, and one that is not is tried. -/
structure PickStep (same : Nat → Nat → Prop) (works : List Nat → Nat → Bool) (count : Nat)
    (state next : PickState) : Prop where
  failed : works state.tried state.latest = false
  after : state.latest < next.latest
  inside : next.latest < count
  between : ∀ j, state.latest < j → j < next.latest → same j state.latest
  other : ¬ same next.latest state.latest
  tried : next.tried = state.tried ++ [state.latest]

section Rule

variable {same wider : Nat → Nat → Prop} {works : List Nat → Nat → Bool} {count : Nat}
  {state next other : PickState}

/-- One item follows another at most. -/
theorem PickStep.unique (step : PickStep same works count state next)
    (also : PickStep same works count state other) : next = other := by
  have equal : next.latest = other.latest := by
    rcases Nat.lt_trichotomy next.latest other.latest with less | equal | more
    · exact absurd (also.between _ step.after less) step.other
    · exact equal
    · exact absurd (step.between _ also.after more) also.other
  obtain ⟨tried, latest⟩ := next
  obtain ⟨triedToo, latestToo⟩ := other
  obtain rfl : latest = latestToo := equal
  obtain rfl : tried = triedToo := step.tried.trans also.tried.symm
  rfl

/-- The items that are tried after a state. -/
abbrev PickSteps (same : Nat → Nat → Prop) (works : List Nat → Nat → Bool) (count : Nat) :
    PickState → PickState → Prop :=
  Relation.ReflTransGen (PickStep same works count)

/-- From an item that works no step leads on. -/
theorem PickSteps.eq_of_works (steps : PickSteps same works count state next)
    (working : works state.tried state.latest = true) : next = state := by
  rcases Relation.ReflTransGen.cases_head steps with equal | ⟨middle, step, -⟩
  · exact equal.symm
  · exact absurd (working.symm.trans step.failed) Bool.noConfusion

/-- After a step, the states that are left are those after its end. -/
theorem PickSteps.of_step (steps : PickSteps same works count state next)
    (step : PickStep same works count state other) :
    next = state ∨ PickSteps same works count other next := by
  rcases Relation.ReflTransGen.cases_head steps with equal | ⟨middle, also, rest⟩
  · exact .inl equal.symm
  · rw [also.unique step] at rest
    exact .inr rest

theorem PickSteps.le (steps : PickSteps same works count state next) :
    state.latest ≤ next.latest := by
  induction steps with
  | refl => exact Nat.le_refl _
  | tail _ step ih => exact Nat.le_trans ih (Nat.le_of_lt step.after)

/-- While the next items are more of the same, no other state is reached. -/
theorem PickSteps.eq_or_lt (steps : PickSteps same works count state next) {i : Nat}
    (passed : ∀ j, state.latest < j → j ≤ i → same j state.latest) :
    next = state ∨ i < next.latest := by
  rcases Relation.ReflTransGen.cases_head steps with equal | ⟨middle, step, rest⟩
  · exact .inl equal.symm
  · right
    have reached := PickSteps.le rest
    by_contra early
    exact step.other (passed _ step.after (by omega))

/-- An item that works, and is tried after a state. -/
def Picks (same : Nat → Nat → Prop) (works : List Nat → Nat → Bool) (count : Nat)
    (state : PickState) (item : Nat) : Prop :=
  ∃ next, PickSteps same works count state next ∧ works next.tried next.latest = true ∧
    next.latest = item

/-- An item that is passed over after a state, because it is more of the same as the latest item
tried. -/
def Passes (same : Nat → Nat → Prop) (works : List Nat → Nat → Bool) (count : Nat)
    (state : PickState) (item latest : Nat) : Prop :=
  ∃ next, PickSteps same works count state next ∧ works next.tried next.latest = false ∧
    next.latest = latest ∧ latest < item ∧ item < count ∧
    ∀ j, latest < j → j ≤ item → same j latest

/-! ## A wider test -/

section Wider

variable (wide : ∀ item latest, same item latest → wider item latest)

/-- Only more of the same is passed over. -/
def PassesOnly (same wider : Nat → Nat → Prop) (works : List Nat → Nat → Bool) (count : Nat) :
    Prop :=
  ∀ item latest, Passes wider works count .first item latest → same item latest

/-- The wider test holds of no next item of the rule. -/
def NextApart (same wider : Nat → Nat → Prop) (works : List Nat → Nat → Bool) (count : Nat) :
    Prop :=
  ∀ state next, PickSteps same works count .first state →
    PickStep same works count state next → ¬ wider next.latest state.latest

/-- Items for which the wider test holds one after the other are more of the same, if it holds of
no next item. -/
theorem same_of_wider (apart : NextApart same wider works count)
    (reached : PickSteps same works count .first state)
    (failed : works state.tried state.latest = false) {i : Nat} (inside : i < count)
    (passed : ∀ j, state.latest < j → j ≤ i → wider j state.latest) :
    ∀ j, state.latest < j → j ≤ i → same j state.latest := by
  intro j
  induction j using Nat.strongRecOn with
  | ind j ih =>
      intro after atMost
      by_contra different
      have step : PickStep same works count state ⟨state.tried ++ [state.latest], j⟩ :=
        ⟨failed, after, Nat.lt_of_le_of_lt atMost inside,
          fun k afterK below => ih k below afterK (Nat.le_trans (Nat.le_of_lt below) atMost),
          different, rfl⟩
      exact apart state _ reached step (passed j after atMost)

include wide in
/-- The steps of the rule are steps of the wider test. -/
theorem pickSteps_wider (apart : NextApart same wider works count)
    (steps : PickSteps same works count .first state) :
    PickSteps wider works count .first state := by
  induction steps with
  | refl => exact .refl
  | tail before step ih =>
      exact ih.tail ⟨step.failed, step.after, step.inside,
        fun j after below => wide _ _ (step.between j after below),
        apart _ _ before step, step.tried⟩

include wide in
/-- The steps of the wider test are steps of the rule. -/
theorem pickSteps_of_wider (apart : NextApart same wider works count)
    (steps : PickSteps wider works count .first state) :
    PickSteps same works count .first state := by
  induction steps with
  | refl => exact .refl
  | @tail middle last before step ih =>
      refine ih.tail ⟨step.failed, step.after, step.inside, fun j after below => ?_,
        fun more => step.other (wide _ _ more), step.tried⟩
      refine same_of_wider apart ih step.failed (Nat.lt_trans below step.inside)
        (fun k afterK atMost => ?_) j after (Nat.le_refl j)
      exact step.between k afterK (Nat.lt_of_le_of_lt atMost below)

include wide in
/-- A next item of the rule for which the wider test holds is passed over wrongly. -/
theorem not_wider_of_passesOnly (only : PassesOnly same wider works count)
    (reached : PickSteps wider works count .first state)
    (step : PickStep same works count state next) : ¬ wider next.latest state.latest := by
  intro more
  refine step.other (only _ _ ⟨state, reached, step.failed, rfl, step.after, step.inside, ?_⟩)
  intro j after atMost
  rcases Nat.lt_or_eq_of_le atMost with below | rfl
  · exact wide _ _ (step.between j after below)
  · exact more

include wide in
/-- **A wider test passes over nothing wrongly** exactly when it holds of no next item. -/
theorem passesOnly_iff :
    PassesOnly same wider works count ↔ NextApart same wider works count := by
  constructor
  · intro only
    have steps : ∀ {state}, PickSteps same works count .first state →
        PickSteps wider works count .first state := by
      intro state steps
      induction steps with
      | refl => exact .refl
      | tail before step ih =>
          exact ih.tail ⟨step.failed, step.after, step.inside,
            fun j after below => wide _ _ (step.between j after below),
            not_wider_of_passesOnly wide only ih step, step.tried⟩
    exact fun state next reached step =>
      not_wider_of_passesOnly wide only (steps reached) step
  · rintro apart item latest ⟨state, reached, failed, rfl, after, inside, passed⟩
    exact same_of_wider apart (pickSteps_of_wider wide apart reached) failed inside passed item
      after (Nat.le_refl item)

include wide in
/-- **It then picks the same item.** -/
theorem picks_iff_of_nextApart (apart : NextApart same wider works count) (item : Nat) :
    Picks wider works count .first item ↔ Picks same works count .first item := by
  constructor
  · rintro ⟨state, steps, working⟩
    exact ⟨state, pickSteps_of_wider wide apart steps, working⟩
  · rintro ⟨state, steps, working⟩
    exact ⟨state, pickSteps_wider wide apart steps, working⟩

end Wider

end Rule

/-! ## The loop -/

/-- What the loop did: the item it picked, those it tried, and those it passed over, each with
the latest item tried. -/
structure Pick where
  chosen : Option Nat
  tried : List Nat
  passed : List (Nat × Nat)
deriving Repr, DecidableEq

/-- The loop over the items, with the index of the latest item tried. -/
def pickLoop (same : Nat → Nat → Prop) [DecidableRel same] (works : List Nat → Nat → Bool) :
    Nat → Nat → Nat → List Nat → Pick
  | 0, _, _, tried => ⟨none, tried, []⟩
  | remaining + 1, i, previous, tried =>
      if i ≠ previous ∧ same i previous then
        let rest := pickLoop same works remaining (i + 1) previous tried
        ⟨rest.chosen, rest.tried, (i, previous) :: rest.passed⟩
      else if works tried i then ⟨some i, tried ++ [i], []⟩
      else pickLoop same works remaining (i + 1) i (tried ++ [i])

/-- The run picks what the rule picks after a state and passes over what the rule passes over,
from an index on. -/
structure PickSpec (same : Nat → Nat → Prop) (works : List Nat → Nat → Bool) (count : Nat)
    (state : PickState) (i : Nat) (run : Pick) : Prop where
  chosen : ∀ item, run.chosen = some item ↔ Picks same works count state item
  passed : ∀ item latest, (item, latest) ∈ run.passed ↔
    i ≤ item ∧ Passes same works count state item latest

section Loop

variable {same : Nat → Nat → Prop} {works : List Nat → Nat → Bool} {count i : Nat}
  {state : PickState} {run : Pick}

/-- At the end nothing follows. -/
theorem PickSpec.done (failed : works state.tried state.latest = false)
    (passed : ∀ j, state.latest < j → j < count → same j state.latest) (tried : List Nat) :
    PickSpec same works count state count ⟨none, tried, []⟩ where
  chosen item := by
    refine iff_of_false (by simp) ?_
    rintro ⟨next, steps, working, -⟩
    rcases Relation.ReflTransGen.cases_head steps with rfl | ⟨middle, step, -⟩
    · exact absurd (working.symm.trans failed) Bool.noConfusion
    · exact step.other (passed _ step.after step.inside)
  passed item latest := by
    refine iff_of_false (by simp) ?_
    rintro ⟨past, next, -, -, -, -, inside, -⟩
    exact absurd inside (Nat.not_lt.mpr past)

/-- One more item is passed over. -/
theorem PickSpec.pass (rest : PickSpec same works count state (i + 1) run)
    (failed : works state.tried state.latest = false) (after : state.latest < i)
    (inside : i < count) (passed : ∀ j, state.latest < j → j ≤ i → same j state.latest) :
    PickSpec same works count state i
      ⟨run.chosen, run.tried, (i, state.latest) :: run.passed⟩ where
  chosen := rest.chosen
  passed item latest := by
    rw [List.mem_cons, rest.passed, Prod.mk.injEq]
    constructor
    · rintro (⟨rfl, rfl⟩ | ⟨past, passes⟩)
      · exact ⟨Nat.le_refl _, state, .refl, failed, rfl, after, inside, passed⟩
      · exact ⟨Nat.le_of_succ_le past, passes⟩
    · rintro ⟨past, passes⟩
      rcases Nat.lt_or_eq_of_le past with more | rfl
      · exact .inr ⟨more, passes⟩
      · -- the latest item tried before this one is that of the state
        obtain ⟨next, steps, -, rfl, before, -⟩ := passes
        rcases PickSteps.eq_or_lt steps passed with rfl | later
        · exact .inl ⟨rfl, rfl⟩
        · omega

/-- The next item is tried, and works. -/
theorem PickSpec.pick (failed : works state.tried state.latest = false) {next : PickState}
    (step : PickStep same works count state next)
    (working : works next.tried next.latest = true) (tried : List Nat) :
    PickSpec same works count state next.latest ⟨some next.latest, tried, []⟩ where
  chosen item := by
    constructor
    · intro chosen
      cases chosen
      exact ⟨next, .single step, working, rfl⟩
    · rintro ⟨reached, steps, works, rfl⟩
      rcases PickSteps.of_step steps step with rfl | rest
      · exact absurd (works.symm.trans failed) Bool.noConfusion
      · rw [PickSteps.eq_of_works rest working]
  passed item latest := by
    refine iff_of_false (by simp) ?_
    rintro ⟨past, reached, steps, fails, rfl, before, -, passed⟩
    rcases PickSteps.of_step steps step with rfl | rest
    · exact step.other (passed _ step.after past)
    · rw [PickSteps.eq_of_works rest working] at fails
      exact absurd (working.symm.trans fails) Bool.noConfusion

/-- The next item is tried, and fails. -/
theorem PickSpec.try {next : PickState} (failed : works state.tried state.latest = false)
    (step : PickStep same works count state next)
    (rest : PickSpec same works count next (next.latest + 1) run) :
    PickSpec same works count state next.latest run where
  chosen item := by
    rw [rest.chosen]
    constructor
    · rintro ⟨reached, steps, working⟩
      exact ⟨reached, .head step steps, working⟩
    · rintro ⟨reached, steps, working, latest⟩
      rcases PickSteps.of_step steps step with rfl | later
      · exact absurd (working.symm.trans failed) Bool.noConfusion
      · exact ⟨reached, later, working, latest⟩
  passed item latest := by
    rw [rest.passed]
    constructor
    · rintro ⟨past, reached, steps, passes⟩
      exact ⟨Nat.le_of_succ_le past, reached, .head step steps, passes⟩
    · rintro ⟨past, reached, steps, fails, rfl, before, inside, passed⟩
      rcases PickSteps.of_step steps step with rfl | later
      · exact absurd (passed _ step.after past) step.other
      · have reaches := PickSteps.le later
        exact ⟨by omega, reached, later, fails, rfl, before, inside, passed⟩

variable [DecidableRel same]

/-- The loop after an item that failed. -/
theorem pickLoop_after (remaining : Nat) :
    ∀ {i : Nat} {state : PickState}, i + remaining = count →
      works state.tried state.latest = false → state.latest < i →
      (∀ j, state.latest < j → j < i → same j state.latest) →
      PickSpec same works count state i
        (pickLoop same works remaining i state.latest (state.tried ++ [state.latest])) := by
  induction remaining with
  | zero =>
      intro i state total failed after passed
      obtain rfl : i = count := total
      exact .done failed passed _
  | succ remaining ih =>
      intro i state total failed after passed
      have inside : i < count := by omega
      have further : i + 1 + remaining = count := by omega
      rw [pickLoop]
      by_cases more : same i state.latest
      · have through : ∀ j, state.latest < j → j ≤ i → same j state.latest := by
          intro j afterJ atMost
          rcases Nat.lt_or_eq_of_le atMost with below | rfl
          · exact passed j afterJ below
          · exact more
        rw [if_pos ⟨Nat.ne_of_gt after, more⟩]
        exact .pass (ih further failed (Nat.lt_succ_of_lt after)
          fun j afterJ below => through j afterJ (Nat.le_of_lt_succ below)) failed after inside
            through
      · obtain ⟨next, tries⟩ : ∃ next : PickState, next = ⟨state.tried ++ [state.latest], i⟩ :=
          ⟨_, rfl⟩
        have latest : next.latest = i := congrArg PickState.latest tries
        have tried : next.tried = state.tried ++ [state.latest] := congrArg PickState.tried tries
        rw [if_neg fun both => more both.2, ← tried, ← latest]
        rw [← latest] at after inside further passed more
        have step : PickStep same works count state next :=
          ⟨failed, after, inside, passed, more, tried⟩
        by_cases working : works next.tried next.latest = true
        · rw [if_pos working]
          exact .pick failed step working _
        · rw [if_neg working]
          exact .try failed step (ih further (Bool.eq_false_iff.mpr working)
            (Nat.lt_succ_self _) fun j afterJ below =>
              absurd afterJ (Nat.not_lt.mpr (Nat.le_of_lt_succ below)))

/-- **The loop follows the rule**: it picks the item that the rule picks, and passes over those
that the rule passes over. -/
theorem pickLoop_spec (nonempty : 0 < count) :
    PickSpec same works count .first 0 (pickLoop same works count 0 0 []) := by
  obtain ⟨rest, rfl⟩ := Nat.exists_eq_succ_of_ne_zero (Nat.ne_of_gt nonempty)
  rw [pickLoop, if_neg fun both => both.1 rfl]
  by_cases working : works [] 0 = true
  · rw [if_pos working]
    constructor
    · intro item
      constructor
      · intro chosen
        cases chosen
        exact ⟨.first, .refl, working, rfl⟩
      · rintro ⟨next, steps, -, rfl⟩
        rw [PickSteps.eq_of_works steps working]
        rfl
    · intro item latest
      refine iff_of_false (by simp) ?_
      rintro ⟨-, next, steps, fails, -⟩
      rw [PickSteps.eq_of_works steps working] at fails
      exact absurd (working.symm.trans fails) Bool.noConfusion
  · rw [if_neg working]
    have after : PickSpec same works (rest + 1) .first 1
        (pickLoop same works rest 1 0 (PickState.first.tried ++ [PickState.first.latest])) :=
      pickLoop_after rest (Nat.add_comm 1 rest) (Bool.eq_false_iff.mpr working) Nat.one_pos
        fun j positive below => absurd positive (Nat.not_lt.mpr (Nat.le_of_lt_succ below))
    refine ⟨after.chosen, fun item latest => (after.passed item latest).trans ?_⟩
    refine and_congr_left fun passes => iff_of_true ?_ (Nat.zero_le item)
    obtain ⟨next, -, -, -, before, -⟩ := passes
    exact Nat.lt_of_le_of_lt (Nat.zero_le latest) before

end Loop

end VineyardLoader
