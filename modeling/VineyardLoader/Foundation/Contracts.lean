import VineyardLoader.Foundation.Effects

/-!
# Contracts of programs with state

A contract says in which states a program may start, what a run that returns leaves, which may
depend on the value, and what a run that stops leaves (`Ensures`). An invariant that a program
preserves is the case of one condition before and after (`Preserves.ensures`).

The rules follow the structure of a program. What is left where a program stops is the same for all
its parts, so a stop is looked at once, where it happens, and not at every `bind` after it.
-/

set_option autoImplicit false

namespace VineyardLoader

variable {ε σ α β : Type} {before start : σ → Prop} {after : α → σ → Prop} {left : σ → Prop}

/-- From the states before, a run that returns ends in a state after its value, and a run that stops
ends in a state that may be left. -/
def Ensures (before : σ → Prop) (program : EStateM ε σ α) (after : α → σ → Prop)
    (left : σ → Prop) : Prop :=
  ∀ state, before state →
    (∀ value final, program state = .ok value final → after value final) ∧
      ∀ reason stopped, program state = .error reason stopped → left stopped

theorem Preserves.ensures {program : EStateM ε σ α} (preserves : Preserves before left program) :
    Ensures before program (fun _ => before) left := preserves

/-- Where a run ends, if nothing more is asked of a run that returns. -/
theorem Ensures.finalState {program : EStateM ε σ α} (ensures : Ensures before program after left)
    (enough : ∀ value state, after value state → left state) {state : σ} (holds : before state) :
    left (finalState (program state)) := by
  obtain ⟨returns, stops⟩ := ensures state holds
  cases run : program state with
  | ok value final => exact enough value final (returns value final run)
  | error reason stopped => exact stops reason stopped run

namespace Ensures

/-- A stronger start, and a weaker end. -/
theorem weaken {program : EStateM ε σ α} {result : α → σ → Prop}
    (ensures : Ensures before program after left) (first : ∀ state, start state → before state)
    (last : ∀ value state, after value state → result value state) :
    Ensures start program result left := by
  intro state holds
  obtain ⟨returns, stops⟩ := ensures state (first state holds)
  exact ⟨fun value final run => last value final (returns value final run), stops⟩

/-- A program that returns. -/
theorem of_ok {program : EStateM ε σ α}
    (returns : ∀ state, before state →
      ∃ value final, program state = .ok value final ∧ after value final) :
    Ensures before program after left := by
  intro state holds
  obtain ⟨value, final, run, ends⟩ := returns state holds
  rw [run]
  refine ⟨fun _ _ same => ?_, nofun⟩
  cases same
  exact ends

theorem pure {value : α} (ends : ∀ state, before state → after value state) :
    Ensures before (pure value : EStateM ε σ α) after left :=
  of_ok fun state holds => ⟨value, state, rfl, ends state holds⟩

theorem get : Ensures before (get : EStateM ε σ σ) (fun _ => before) left :=
  of_ok fun state holds => ⟨state, state, rfl, holds⟩

theorem modify {change : σ → σ} {after : PUnit → σ → Prop}
    (ends : ∀ state, before state → after ⟨⟩ (change state)) :
    Ensures before (modify change : EStateM ε σ PUnit) after left :=
  of_ok fun state holds => ⟨⟨⟩, change state, rfl, ends state holds⟩

theorem throw {reason : ε} (stops : ∀ state, before state → left state) :
    Ensures before (throw reason : EStateM ε σ α) after left := by
  intro state holds
  refine ⟨nofun, fun _ _ same => ?_⟩
  cases same
  exact stops state holds

theorem bind {first : EStateM ε σ α} {rest : α → EStateM ε σ β} {result : β → σ → Prop}
    (here : Ensures before first after left)
    (later : ∀ value, Ensures (after value) (rest value) result left) :
    Ensures before (first >>= rest) result left := by
  intro state holds
  rw [bind_run]
  obtain ⟨returns, stops⟩ := here state holds
  cases run : first state with
  | ok value middle => exact later value middle (returns value middle run)
  | error reason stopped =>
      refine ⟨nofun, fun _ _ same => ?_⟩
      cases same
      exact stops reason stopped run

theorem ite {condition : Prop} [Decidable condition] {first second : EStateM ε σ α}
    (yes : condition → Ensures before first after left)
    (no : ¬ condition → Ensures before second after left) :
    Ensures before (if condition then first else second) after left := by
  split
  · exact yes ‹_›
  · exact no ‹_›

/-- A check that stops the program comes before a rest. -/
theorem check {condition : Prop} [Decidable condition] {reason : ε} {rest : EStateM ε σ α}
    (stops : ∀ state, before state → left state) (ensures : Ensures before rest after left) :
    Ensures before (if condition then (do MonadExcept.throw reason; rest) else rest) after left :=
  Ensures.ite (fun _ => Ensures.bind (Ensures.throw stops) fun _ => ensures) fun _ => ensures

/-- A part of the start that does not depend on the state. -/
theorem assume {fact : Prop} {program : EStateM ε σ α}
    (ensures : fact → Ensures before program after left) :
    Ensures (fun state => before state ∧ fact) program after left :=
  fun state holds => ensures holds.2 state holds.1

/-- Two contracts at once. -/
theorem and {program : EStateM ε σ α} {other otherLeft : σ → Prop} {result : α → σ → Prop}
    (one : Ensures before program after left) (two : Ensures other program result otherLeft) :
    Ensures (fun state => before state ∧ other state) program
      (fun value state => after value state ∧ result value state) left := by
  rintro state ⟨holds, also⟩
  obtain ⟨returns, stops⟩ := one state holds
  exact ⟨fun value final run => ⟨returns value final run, (two state also).1 value final run⟩, stops⟩

/-- A start that is known up to something. -/
theorem exists_ {ι : Type} {known : ι → σ → Prop} {program : EStateM ε σ α}
    (ensures : ∀ index, Ensures (known index) program after left) :
    Ensures (fun state => ∃ index, known index state) program after left :=
  fun state ⟨index, holds⟩ => ensures index state holds

/-- A loop over a list, whose turns keep an invariant. -/
theorem forM {body : β → EStateM ε σ PUnit} {invariant : σ → Prop} {items : List β}
    (turn : ∀ item ∈ items, Ensures invariant (body item) (fun _ => invariant) left) :
    Ensures invariant (items.forM body) (fun _ => invariant) left := by
  induction items with
  | nil => exact Ensures.pure fun _ holds => holds
  | cons item items ih =>
      rw [List.forM_eq_forM, List.forM_cons]
      exact (turn item List.mem_cons_self).bind fun _ =>
        ih fun other member => turn other (List.mem_cons_of_mem _ member)

end Ensures

end VineyardLoader
