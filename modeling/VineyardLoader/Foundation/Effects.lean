import Mathlib.Tactic.Common

/-!
# Programs with a state that may stop

A program runs on a state and either returns a value or stops with a reason. In both cases
the state it reached remains. A program that returned a value from a sequence of two parts
went through both of them (`bind_eq_ok`), and one that stopped did so in one of the two
(`bind_eq_error`), so the parts of a run can be named one after the other.

Two loops occur: a counted loop (`repeatTimes`), which is the loop over the numbers below the
count, and a loop over a list. What every turn of a loop preserves, the loop preserves
(`forM_ok`).

Five more properties are composed along the parts of a program: that it leaves a part of the
state alone, whether it returns or stops (`Keeps`), that it keeps an invariant (`Preserves`),
that it only stops for certain reasons (`StopsWith`), that it never stops for a certain reason
(`Avoids`), and that it returns (`Returns`). A program on a part of the state is one on the whole
(`zoom`).
-/

set_option autoImplicit false

namespace VineyardLoader

section Programs

variable {ε σ α β : Type}

@[simp]
theorem pure_run (value : α) (state : σ) :
    (pure value : EStateM ε σ α) state = .ok value state := rfl

@[simp]
theorem get_run (state : σ) : (get : EStateM ε σ σ) state = .ok state state := rfl

@[simp]
theorem modify_run (change : σ → σ) (state : σ) :
    (modify change : EStateM ε σ PUnit) state = .ok ⟨⟩ (change state) := rfl

@[simp]
theorem throw_run (reason : ε) (state : σ) :
    (throw reason : EStateM ε σ α) state = .error reason state := rfl

theorem bind_run (first : EStateM ε σ α) (rest : α → EStateM ε σ β) (state : σ) :
    (first >>= rest) state =
      match first state with
      | .ok value middle => rest value middle
      | .error reason middle => .error reason middle := by
  show EStateM.bind first rest state = _
  unfold EStateM.bind
  cases first state <;> rfl

/-- A first part that returned leaves the rest. -/
theorem bind_of_ok {first : EStateM ε σ α} {rest : α → EStateM ε σ β} {state middle : σ}
    {value : α} (run : first state = .ok value middle) :
    (first >>= rest) state = rest value middle := by
  rw [bind_run, run]

/-- First parts with the same run may be exchanged. -/
theorem bind_congr_run {first second : EStateM ε σ α} {state other : σ}
    (same : first state = second other) (rest : α → EStateM ε σ β) :
    (first >>= rest) state = (second >>= rest) other := by
  rw [bind_run, bind_run, same]

/-- What follows a choice follows both of its branches. -/
theorem ite_bind {condition : Prop} [Decidable condition] (first second : EStateM ε σ α)
    (rest : α → EStateM ε σ β) :
    ((if condition then first else second) >>= rest) =
      if condition then first >>= rest else second >>= rest := by
  split
  · rfl
  · rfl

/-- A sequence that returned went through both of its parts. -/
theorem bind_eq_ok {first : EStateM ε σ α} {rest : α → EStateM ε σ β} {state final : σ}
    {result : β} :
    (first >>= rest) state = .ok result final ↔
      ∃ value middle, first state = .ok value middle ∧ rest value middle = .ok result final := by
  rw [bind_run]
  cases first state with
  | ok value middle => simp
  | error reason middle => simp

/-- A sequence that stopped did so in one of its parts. -/
theorem bind_eq_error {first : EStateM ε σ α} {rest : α → EStateM ε σ β} {state final : σ}
    {reason : ε} :
    (first >>= rest) state = .error reason final ↔
      first state = .error reason final ∨
        ∃ value middle, first state = .ok value middle ∧
          rest value middle = .error reason final := by
  rw [bind_run]
  cases first state with
  | ok value middle => simp
  | error reason middle => simp

/-- A check that was passed comes before a rest that returned. -/
theorem check_eq_ok {condition : Prop} [Decidable condition] {reason : ε} {rest : EStateM ε σ α}
    {state final : σ} {value : α} :
    (if condition then (do throw reason; rest) else rest) state = .ok value final ↔
      ¬ condition ∧ rest state = .ok value final := by
  split
  · rename_i fails
    simp [bind_run, fails]
  · rename_i passes
    simp [passes]

/-- A check with its rest stops in the check or in the rest. -/
theorem check_eq_error {condition : Prop} [Decidable condition] {reason stop : ε}
    {rest : EStateM ε σ α} {state final : σ} :
    (if condition then (do throw reason; rest) else rest) state = .error stop final ↔
      condition ∧ stop = reason ∧ final = state ∨
        ¬ condition ∧ rest state = .error stop final := by
  split
  · rename_i fails
    simp [bind_run, fails, eq_comm]
  · rename_i passes
    simp [passes]

/-- Run the body for each number below the count, in order. -/
def repeatTimes (body : Nat → EStateM ε σ PUnit) : Nat → EStateM ε σ PUnit
  | 0 => pure ⟨⟩
  | count + 1 => do
      repeatTimes body count
      body count

/-- The counted loop is the loop over the numbers below the count. -/
theorem repeatTimes_eq_forM (body : Nat → EStateM ε σ PUnit) (count : Nat) :
    repeatTimes body count = (List.range count).forM body := by
  induction count with
  | zero => rfl
  | succ count ih =>
      rw [repeatTimes, ih, List.range_succ]
      simp

/-- What every turn preserves, a loop over a list preserves. -/
theorem forM_ok {body : β → EStateM ε σ PUnit} {invariant : List β → σ → Prop} :
    ∀ {items visited : List β} {state final : σ}, invariant visited state →
      (∀ earlier item before after, (∃ rest, visited ++ items = earlier ++ item :: rest) →
        invariant earlier before → body item before = .ok ⟨⟩ after →
          invariant (earlier ++ [item]) after) →
      items.forM body state = .ok ⟨⟩ final → invariant (visited ++ items) final := by
  intro items
  induction items with
  | nil =>
      intro visited state final initially _ run
      rw [List.append_nil]
      simp only [List.forM_eq_forM, List.forM_nil, pure_run, EStateM.Result.ok.injEq,
        true_and] at run
      exact run ▸ initially
  | cons item items ih =>
      intro visited state final initially turn run
      simp only [List.forM_eq_forM, List.forM_cons] at run
      obtain ⟨⟨⟩, middle, first, rest⟩ := bind_eq_ok.mp run
      have after := turn visited item state middle ⟨items, rfl⟩ initially first
      have finally_ : invariant ((visited ++ [item]) ++ items) final :=
        ih after (fun earlier next before later split =>
          turn earlier next before later (by simpa using split)) rest
      simpa using finally_

/-- A loop over a list that stopped did so in one of its turns. -/
theorem forM_error {body : β → EStateM ε σ PUnit} {reason : ε} {final : σ} :
    ∀ {items : List β} {state : σ}, items.forM body state = .error reason final →
      ∃ item ∈ items, ∃ before, body item before = .error reason final := by
  intro items
  induction items with
  | nil =>
      intro state run
      simp only [List.forM_eq_forM, List.forM_nil, pure_run, reduceCtorEq] at run
  | cons item items ih =>
      intro state run
      simp only [List.forM_eq_forM, List.forM_cons] at run
      rcases bind_eq_error.mp run with here | ⟨⟨⟩, middle, -, later⟩
      · exact ⟨item, by simp, state, here⟩
      · obtain ⟨found, member, before, stopped⟩ := ih later
        exact ⟨found, by simp [member], before, stopped⟩

/-! ## What a program leaves alone -/

/-- The state that a run ends in, whether it returned or stopped. -/
def finalState : EStateM.Result ε σ α → σ
  | .ok _ final => final
  | .error _ final => final

/-- A program that does not change a part of the state, whether it returns or stops. -/
def Keeps {π : Type} (part : σ → π) (program : EStateM ε σ α) : Prop :=
  ∀ state, part (finalState (program state)) = part state

section Keeps

variable {π : Type} {part : σ → π}

theorem Keeps.ok {program : EStateM ε σ α} (keeps : Keeps part program) {state final : σ}
    {value : α} (run : program state = .ok value final) : part final = part state := by
  have same := keeps state
  rwa [run] at same

theorem Keeps.error {program : EStateM ε σ α} (keeps : Keeps part program) {state final : σ}
    {reason : ε} (run : program state = .error reason final) : part final = part state := by
  have same := keeps state
  rwa [run] at same

theorem Keeps.pure (value : α) : Keeps part (pure value : EStateM ε σ α) := fun _ => rfl

theorem Keeps.get : Keeps part (get : EStateM ε σ σ) := fun _ => rfl

theorem Keeps.modify {change : σ → σ} (same : ∀ state, part (change state) = part state) :
    Keeps part (modify change : EStateM ε σ PUnit) := same

theorem Keeps.throw (reason : ε) : Keeps part (throw reason : EStateM ε σ α) := fun _ => rfl

theorem Keeps.bind {first : EStateM ε σ α} {rest : α → EStateM ε σ β} (here : Keeps part first)
    (after : ∀ value, Keeps part (rest value)) : Keeps part (first >>= rest) := by
  intro state
  rw [bind_run]
  cases run : first state with
  | ok value middle => rw [after value middle, here.ok run]
  | error reason middle => exact here.error run

/-- What keeps the whole keeps each part that the whole determines. -/
theorem Keeps.coarser {ρ : Type} {whole : σ → ρ} {program : EStateM ε σ α}
    (determined : ∀ state other, whole state = whole other → part state = part other)
    (keeps : Keeps whole program) : Keeps part program :=
  fun state => determined _ _ (keeps state)

/-- A rest that keeps a part leaves it as the first part of the program did. -/
theorem Keeps.after {first : EStateM ε σ α} {rest : α → EStateM ε σ β}
    (after : ∀ value, Keeps part (rest value)) (state : σ) :
    part (finalState ((first >>= rest) state)) = part (finalState (first state)) := by
  rw [bind_run]
  cases first state with
  | ok value middle => exact after value middle
  | error reason middle => rfl

theorem Keeps.ite {condition : Prop} [Decidable condition] {first second : EStateM ε σ α}
    (yes : condition → Keeps part first) (no : ¬ condition → Keeps part second) :
    Keeps part (if condition then first else second) := by
  split
  · exact yes ‹_›
  · exact no ‹_›

/-- A check that stops the program comes before a rest. -/
theorem Keeps.check {condition : Prop} [Decidable condition] {reason : ε} {rest : EStateM ε σ α}
    (keeps : Keeps part rest) :
    Keeps part (if condition then (do MonadExcept.throw reason; rest) else rest) :=
  Keeps.ite (fun _ => (Keeps.throw _).bind fun _ => keeps) fun _ => keeps

theorem Keeps.repeatTimes {body : Nat → EStateM ε σ PUnit} (turn : ∀ index, Keeps part (body index)) :
    ∀ count, Keeps part (repeatTimes body count)
  | 0 => Keeps.pure PUnit.unit
  | count + 1 => Keeps.bind (Keeps.repeatTimes turn count) fun _ => turn count

end Keeps

/-! ## Invariants -/

/-- A program that keeps an invariant. Where it stops, a weaker property is left. -/
def Preserves (invariant left : σ → Prop) (program : EStateM ε σ α) : Prop :=
  ∀ state, invariant state →
    (∀ value final, program state = .ok value final → invariant final) ∧
      ∀ reason final, program state = .error reason final → left final

section Preserves

variable {invariant left : σ → Prop}

/-- A program whose end is always in the invariant, and that does not stop. -/
theorem Preserves.of_ok {program : EStateM ε σ α}
    (ends : ∀ state, invariant state →
      ∃ value final, program state = .ok value final ∧ invariant final) :
    Preserves invariant left program := by
  intro state holds
  obtain ⟨value, final, run, after⟩ := ends state holds
  rw [run]
  refine ⟨fun _ _ same => ?_, fun _ _ same => (by cases same)⟩
  cases same
  exact after

/-- An invariant of a part that the program does not change. -/
theorem Preserves.of_keeps {π : Type} {part : σ → π} {invariant left : π → Prop}
    {program : EStateM ε σ α} (keeps : Keeps part program)
    (weaker : ∀ state, invariant (part state) → left (part state)) :
    Preserves (fun state => invariant (part state)) (fun state => left (part state)) program := by
  intro state holds
  refine ⟨fun value final run => ?_, fun reason final run => ?_⟩
  · show invariant (part final)
    rwa [keeps.ok run]
  · show left (part final)
    rw [keeps.error run]
    exact weaker state holds

theorem Preserves.pure (value : α) : Preserves invariant left (pure value : EStateM ε σ α) :=
  Preserves.of_ok fun state holds => ⟨value, state, rfl, holds⟩

theorem Preserves.get : Preserves invariant left (get : EStateM ε σ σ) :=
  Preserves.of_ok fun state holds => ⟨state, state, rfl, holds⟩

theorem Preserves.modify {change : σ → σ}
    (stays : ∀ state, invariant state → invariant (change state)) :
    Preserves invariant left (modify change : EStateM ε σ PUnit) :=
  Preserves.of_ok fun state holds => ⟨⟨⟩, change state, rfl, stays state holds⟩

theorem Preserves.throw (weaker : ∀ state, invariant state → left state) (reason : ε) :
    Preserves invariant left (throw reason : EStateM ε σ α) := by
  intro state holds
  refine ⟨fun _ _ same => (by cases same), fun _ _ same => ?_⟩
  cases same
  exact weaker state holds

theorem Preserves.bind {first : EStateM ε σ α} {rest : α → EStateM ε σ β}
    (here : Preserves invariant left first)
    (after : ∀ value, Preserves invariant left (rest value)) :
    Preserves invariant left (first >>= rest) := by
  intro state holds
  rw [bind_run]
  obtain ⟨returns, stops⟩ := here state holds
  cases run : first state with
  | ok value middle => exact after value middle (returns value middle run)
  | error reason middle =>
      refine ⟨fun _ _ same => (by cases same), fun _ _ same => ?_⟩
      cases same
      exact stops _ _ run

theorem Preserves.ite {condition : Prop} [Decidable condition] {first second : EStateM ε σ α}
    (yes : condition → Preserves invariant left first)
    (no : ¬ condition → Preserves invariant left second) :
    Preserves invariant left (if condition then first else second) := by
  split
  · exact yes ‹_›
  · exact no ‹_›

/-- An invariant that is left wherever the program stops holds in the state that a run ends in. -/
theorem preserves_self_iff {program : EStateM ε σ α} :
    Preserves invariant invariant program ↔
      ∀ state, invariant state → invariant (finalState (program state)) := by
  constructor
  · intro preserves state holds
    obtain ⟨returns, stops⟩ := preserves state holds
    cases run : program state with
    | ok value final => exact returns value final run
    | error reason final => exact stops reason final run
  · intro always state holds
    have ends := always state holds
    refine ⟨fun value final run => ?_, fun reason final run => ?_⟩
    · rwa [run] at ends
    · rwa [run] at ends

end Preserves

/-! ## What a program stops with -/

/-- A program that stops only for certain reasons, and leaves the state as it was when it
stops. -/
def StopsWith (reasons : ε → Prop) (program : EStateM ε σ α) : Prop :=
  ∀ state reason stopped, program state = .error reason stopped → reasons reason ∧ stopped = state

section StopsWith

variable {reasons : ε → Prop} {reason : ε}

theorem StopsWith.pure (value : α) : StopsWith reasons (pure value : EStateM ε σ α) :=
  fun _ _ _ run => by cases run

theorem StopsWith.throw (allowed : reasons reason) :
    StopsWith reasons (throw reason : EStateM ε σ α) := by
  intro state other stopped run
  cases run
  exact ⟨allowed, rfl⟩

theorem StopsWith.ite {condition : Prop} [Decidable condition] {first second : EStateM ε σ α}
    (yes : condition → StopsWith reasons first) (no : ¬ condition → StopsWith reasons second) :
    StopsWith reasons (if condition then first else second) := by
  split
  · exact yes ‹_›
  · exact no ‹_›

/-- A check that stops the program comes before a rest. -/
theorem StopsWith.check {condition : Prop} [Decidable condition] {rest : EStateM ε σ α}
    (allowed : reasons reason) (stops : StopsWith reasons rest) :
    StopsWith reasons (if condition then (do MonadExcept.throw reason; rest) else rest) := by
  intro state other stopped run
  rcases check_eq_error.mp run with ⟨-, rfl, rfl⟩ | ⟨-, later⟩
  · exact ⟨allowed, rfl⟩
  · exact stops _ _ _ later

end StopsWith

/-! ## Reasons that do not occur -/

/-- A program that never stops for a certain reason. -/
def Avoids (reason : ε) (program : EStateM ε σ α) : Prop :=
  ∀ state stopped, program state ≠ .error reason stopped

section Avoids

variable {reason : ε}

theorem Avoids.pure (value : α) : Avoids reason (pure value : EStateM ε σ α) := nofun

theorem Avoids.get : Avoids reason (get : EStateM ε σ σ) := nofun

theorem Avoids.modify (change : σ → σ) : Avoids reason (modify change : EStateM ε σ PUnit) := nofun

theorem Avoids.throw {other : ε} (different : other ≠ reason) :
    Avoids reason (throw other : EStateM ε σ α) := by
  intro state stopped same
  cases same
  exact different rfl

theorem Avoids.bind {first : EStateM ε σ α} {rest : α → EStateM ε σ β} (here : Avoids reason first)
    (after : ∀ value, Avoids reason (rest value)) : Avoids reason (first >>= rest) := by
  intro state stopped run
  rcases bind_eq_error.mp run with stops | ⟨value, middle, -, stops⟩
  · exact here state stopped stops
  · exact after value middle stopped stops

theorem Avoids.ite {condition : Prop} [Decidable condition] {first second : EStateM ε σ α}
    (yes : condition → Avoids reason first) (no : ¬ condition → Avoids reason second) :
    Avoids reason (if condition then first else second) := by
  split
  · exact yes ‹_›
  · exact no ‹_›

end Avoids

/-! ## Programs that return -/

/-- A program that returns from every state. -/
def Returns (program : EStateM ε σ α) : Prop :=
  ∀ state, ∃ value final, program state = .ok value final

theorem Returns.pure (value : α) : Returns (pure value : EStateM ε σ α) :=
  fun state => ⟨value, state, rfl⟩

theorem Returns.get : Returns (get : EStateM ε σ σ) := fun state => ⟨state, state, rfl⟩

theorem Returns.modify (change : σ → σ) : Returns (modify change : EStateM ε σ PUnit) :=
  fun state => ⟨⟨⟩, change state, rfl⟩

theorem Returns.bind {first : EStateM ε σ α} {rest : α → EStateM ε σ β} (here : Returns first)
    (after : ∀ value, Returns (rest value)) : Returns (first >>= rest) := by
  intro state
  obtain ⟨value, middle, run⟩ := here state
  obtain ⟨result, final, later⟩ := after value middle
  exact ⟨result, final, (bind_of_ok run).trans later⟩

theorem Returns.ite {condition : Prop} [Decidable condition] {first second : EStateM ε σ α}
    (yes : condition → Returns first) (no : ¬ condition → Returns second) :
    Returns (if condition then first else second) := by
  split
  · exact yes ‹_›
  · exact no ‹_›

/-- A sequence returns if its first part does and its rest does from there. -/
theorem exists_ok_bind {first : EStateM ε σ α} {rest : α → EStateM ε σ β} {state : σ}
    (here : ∃ value middle, first state = .ok value middle)
    (after : ∀ value middle, first state = .ok value middle →
      ∃ result final, rest value middle = .ok result final) :
    ∃ result final, (first >>= rest) state = .ok result final := by
  obtain ⟨value, middle, run⟩ := here
  obtain ⟨result, final, later⟩ := after value middle run
  exact ⟨result, final, (bind_of_ok run).trans later⟩

/-! ## Programs on a part of the state -/

/-- A program on a part of the state, as a program on the whole. -/
def zoom {τ : Type} (part : σ → τ) (put : τ → σ → σ) (program : EStateM ε τ α) : EStateM ε σ α :=
  fun state =>
    match program (part state) with
    | .ok value new => .ok value (put new state)
    | .error reason new => .error reason (put new state)

/-- It stops with the part that the program stopped with. -/
theorem zoom_of_error {τ : Type} {part : σ → τ} {put : τ → σ → σ} {program : EStateM ε τ α}
    {state : σ} {stopped : τ} {reason : ε} (run : program (part state) = .error reason stopped) :
    zoom part put program state = .error reason (put stopped state) := by
  rw [zoom, run]

/-- Whether a run returned. -/
def returned : EStateM.Result ε σ α → Bool
  | .ok _ _ => true
  | .error _ _ => false

theorem ok_of_returned {result : EStateM.Result ε σ PUnit} (runs : returned result = true) :
    result = .ok ⟨⟩ (finalState result) := by
  cases result with
  | ok value final => rfl
  | error reason final => exact absurd runs Bool.false_ne_true

theorem exists_ok_of_returned {result : EStateM.Result ε σ α} (runs : returned result = true) :
    ∃ value final, result = .ok value final := by
  cases result with
  | ok value final => exact ⟨value, final, rfl⟩
  | error reason final => exact absurd runs Bool.false_ne_true

/-- The value that a run returned, if it did. -/
def returnedValue : EStateM.Result ε σ α → Option α
  | .ok value _ => some value
  | .error _ _ => none

theorem ok_of_value {result : EStateM.Result ε σ α} {value : α}
    (runs : returnedValue result = some value) : result = .ok value (finalState result) := by
  cases result with
  | ok other final =>
      cases runs
      rfl
  | error reason final => cases runs

/-- The reason that a run stopped for, if it did. -/
def stopReason : EStateM.Result ε σ α → Option ε
  | .ok _ _ => none
  | .error reason _ => some reason

theorem error_of_reason {result : EStateM.Result ε σ α} {reason : ε}
    (stops : stopReason result = some reason) : result = .error reason (finalState result) := by
  cases result with
  | ok value final => cases stops
  | error other final =>
      cases stops
      rfl

/-- A run that does not stop returns. -/
theorem exists_ok_of_not_error {result : EStateM.Result ε σ α}
    (runs : ∀ reason final, result ≠ .error reason final) :
    ∃ value final, result = .ok value final := by
  cases result with
  | ok value final => exact ⟨value, final, rfl⟩
  | error reason final => exact absurd rfl (runs reason final)

end Programs

end VineyardLoader
