import VineyardLoader.Lib.Format

/-!
# Whole runs of `vcbprintf`

The steps of a format are the turns of its main loop one after the other (`steps`). With a
callback that takes every string, a run prints all of them (`mainLoop_takesAll`). With any other
callback it prints the first few (`mainLoop_taken`).
-/

set_option autoImplicit false

namespace VineyardLoader

/-- The steps from the front of what is left of a format to its end. -/
def steps (arguments : Arguments) (args : Nat) (bad : Bool) : List UInt8 → List Step
  | [] => []
  | c :: rest =>
      step arguments args bad (c :: rest) ::
        steps arguments (step arguments args bad (c :: rest)).emission.args
          (step arguments args bad (c :: rest)).badConversion
          (step arguments args bad (c :: rest)).rest
termination_by rest => rest.length
decreasing_by exact step_rest_lt _ _ _ _ _

/-- All strings that steps print, in order. -/
def printedCalls (taken : List Step) : List (List UInt8) := taken.flatMap fun s => s.emission.calls

/-- What steps add to `written`, as a number. -/
def countedLength (taken : List Step) : Nat := (taken.map fun s => s.emission.written).sum

/-- The argument after steps. -/
def argsAfter (args : Nat) (taken : List Step) : Nat := taken.foldl (fun _ s => s.emission.args) args

/-- The conversions of a format: those that are printed as conversions, in order. -/
def conversions (arguments : Arguments) (format : CString) : List Conversion :=
  (steps arguments 0 false format.bytes).filterMap Step.conversion

/-- A callback that takes every string. -/
def TakesAll (callback : Callback) : Prop :=
  ∀ calls string, callback (calls ++ [string]) = string.length

theorem callbackPlaceholder_takesAll : TakesAll callbackPlaceholder := by
  intro calls string
  rw [callbackPlaceholder, List.getLastD_concat]

theorem deliver_takesAll {callback : Callback} (takesAll : TakesAll callback) :
    ∀ made strings, deliver callback made strings = (made ++ strings, true) := by
  intro made strings
  induction strings generalizing made with
  | nil => rw [deliver, List.append_nil]
  | cons string rest ih =>
      rw [deliver, if_neg (not_not_intro (takesAll made string)), ih, List.append_assoc]
      rfl

/-- What a run leaves that took steps. -/
structure Took (state final : PrintState) (taken : List Step) : Prop where
  prefixWrites : final.prefixWrites =
    state.prefixWrites ++ taken.flatMap fun s => s.emission.prefixWrites
  bufWrites : final.bufWrites = state.bufWrites ++ taken.flatMap fun s => s.emission.bufWrites

/-- What a run leaves that printed steps as a whole. -/
structure Printed (state final : PrintState) (taken : List Step) : Prop
    extends Took state final taken where
  calls : final.calls = state.calls ++ printedCalls taken
  written : final.written = (state.written + countedLength taken) % 2 ^ 64
  args : final.args = argsAfter state.args taken

section Loop

variable {format : CString} {arguments : Arguments}

theorem Took.refl (state : PrintState) : Took state state [] :=
  ⟨(List.append_nil _).symm, (List.append_nil _).symm⟩

/-- A state after a turn, and then steps. -/
theorem Took.cons {state final : PrintState} {s : Step} {next : Nat} {calls : List (List UInt8)}
    {taken : List Step}
    (later : Took (state.after ⟨s.emission, next, s.badConversion⟩ calls) final taken) :
    Took state final (s :: taken) where
  prefixWrites := by
    rw [later.prefixWrites, List.flatMap_cons, ← List.append_assoc]
    rfl
  bufWrites := by
    rw [later.bufWrites, List.flatMap_cons, ← List.append_assoc]
    rfl

theorem Printed.cons {state final : PrintState} {s : Step} {next : Nat} {taken : List Step}
    (later : Printed (state.after ⟨s.emission, next, s.badConversion⟩
      (state.calls ++ s.emission.calls)) final taken) : Printed state final (s :: taken) where
  toTook := later.toTook.cons
  calls := by
    rw [later.calls, printedCalls, printedCalls, List.flatMap_cons, ← List.append_assoc]
    rfl
  written := by
    rw [later.written, countedLength, countedLength, List.map_cons, List.sum_cons,
      PrintState.after, Nat.mod_add_mod, Nat.add_assoc]
  args := by
    rw [later.args]
    rfl

/-- **A run with a callback that takes every string prints all steps.** -/
theorem mainLoop_takesAll (arguments : Arguments) {callback : Callback}
    (takesAll : TakesAll callback) :
    ∀ {turns : Nat} (state : PrintState) {rest : List UInt8}, format.At state.format rest →
      rest.length < turns → state.written < 2 ^ 64 →
        ∃ final, mainLoop callback format arguments turns state = some (final, true) ∧
          Printed state final (steps arguments state.args state.badConversion rest) := by
  intro turns
  induction turns with
  | zero =>
      intro state rest here bound _
      exact absurd bound (Nat.not_lt_zero _)
  | succ turns ih =>
      intro state rest here bound small
      rw [mainLoop, here.read]
      cases rest with
      | nil =>
          rw [steps]
          refine ⟨state, rfl, Took.refl state, ?_, ?_, rfl⟩
          · exact (List.append_nil _).symm
          · exact (Nat.mod_eq_of_lt small).symm
      | cons c rest =>
          obtain ⟨next, run, after⟩ := turn_eq arguments state.args state.badConversion here
          have shorter := step_rest_lt arguments state.args state.badConversion c rest
          obtain ⟨final, later, printed⟩ := ih (state.after
            ⟨(step arguments state.args state.badConversion (c :: rest)).emission, next,
              (step arguments state.args state.badConversion (c :: rest)).badConversion⟩
            (state.calls ++
              (step arguments state.args state.badConversion (c :: rest)).emission.calls))
            after (by omega) (Nat.mod_lt _ (by decide))
          simp only [List.headD_cons, Option.bind_eq_bind, Option.bind_some,
            if_neg here.head_ne_zero, run, deliver_takesAll takesAll, if_true]
          refine ⟨final, later, ?_⟩
          rw [steps]
          exact printed.cons

/-- A run takes the first steps of its format, whatever the callback returns. -/
theorem mainLoop_taken {callback : Callback} :
    ∀ {turns : Nat} {state final : PrintState} {rest : List UInt8} {reached : Bool},
      format.At state.format rest →
        mainLoop callback format arguments turns state = some (final, reached) →
          ∃ taken, taken <+: steps arguments state.args state.badConversion rest ∧
            Took state final taken := by
  intro turns
  induction turns with
  | zero =>
      intro state final rest reached here run
      cases run
  | succ turns ih =>
      intro state final rest reached here run
      rw [mainLoop, here.read] at run
      cases rest with
      | nil =>
          cases run
          exact ⟨[], List.nil_prefix, Took.refl _⟩
      | cons c rest =>
          obtain ⟨next, turns_, after⟩ := turn_eq arguments state.args state.badConversion here
          simp only [List.headD_cons, Option.bind_eq_bind, Option.bind_some,
            if_neg here.head_ne_zero, turns_] at run
          rw [steps]
          split at run
          · obtain ⟨taken, first, took⟩ := ih after run
            exact ⟨_ :: taken, List.prefix_cons_iff.mpr (.inr ⟨taken, rfl, first⟩), took.cons⟩
          · cases run
            exact ⟨[_], List.prefix_cons_iff.mpr (.inr ⟨[], rfl, List.nil_prefix⟩),
              (Took.refl _).cons⟩

end Loop

end VineyardLoader
