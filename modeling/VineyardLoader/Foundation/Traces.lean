import Mathlib.Tactic.Common

/-!
# Runs of a labelled system

A system goes from state to state in steps, and each step has a label. A run is a list of steps
one after the other (`Run`). What every step keeps, a run keeps (`Run.invariant`), also where it is
about a value that the labels update (`Run.tracks`). A relation that is reflexive and transitive
holds between the ends of a run if it holds between the ends of each step (`Run.relates`).

A step of one system may be matched by a run of another, of any length. The labels of that run
are a translation of the label of the step. Then every run of the first system is matched by a
run of the second under the translation of its labels (`Run.simulates`).
-/

set_option autoImplicit false

namespace VineyardLoader

section Systems

variable {σ τ ℓ κ : Type} {step : σ → ℓ → σ → Prop}

/-- A run of a system, with the labels of its steps in order. -/
inductive Run (step : σ → ℓ → σ → Prop) : σ → List ℓ → σ → Prop
  | nil (state : σ) : Run step state [] state
  | cons {first middle last : σ} {label : ℓ} {labels : List ℓ}
      (here : step first label middle) (later : Run step middle labels last) :
      Run step first (label :: labels) last

namespace Run

variable {first middle last : σ} {labels more : List ℓ}

/-- One step is a run. -/
theorem single {label : ℓ} (here : step first label last) : Run step first [label] last :=
  .cons here (.nil last)

/-- A run without steps stays where it is. -/
theorem of_nil (run : Run step first [] last) : last = first := by
  cases run
  rfl

theorem append (run : Run step first labels middle) (later : Run step middle more last) :
    Run step first (labels ++ more) last := by
  induction run with
  | nil => exact later
  | cons here _ ih => exact .cons here (ih later)

/-- What every step keeps, a run keeps. -/
theorem invariant (holds : σ → Prop)
    (keeps : ∀ state label next, step state label next → holds state → holds next)
    (run : Run step first labels last) (initially : holds first) : holds last := by
  induction run with
  | nil => exact initially
  | cons here _ ih => exact ih (keeps _ _ _ here initially)

/-- A value that the labels update: what every step keeps for it, a run keeps for the value after
all of its labels, if the labels are of a kind. -/
theorem tracks {α : Type} (holds : α → σ → Prop) (update : α → ℓ → α) {kind : ℓ → Prop}
    (keeps : ∀ value state label next, kind label → step state label next → holds value state →
      holds (update value label) next)
    (run : Run step first labels last) (kinds : ∀ label ∈ labels, kind label) {value : α}
    (initially : holds value first) : holds (labels.foldl update value) last := by
  induction run generalizing value with
  | nil => exact initially
  | cons here _ ih =>
      have now := kinds _ List.mem_cons_self
      exact ih (fun label member => kinds label (List.mem_cons_of_mem _ member))
        (keeps _ _ _ _ now here initially)

/-- A relation that steps compose to holds between the ends of a run. -/
theorem relates (related : σ → σ → Prop) (refl : ∀ state, related state state)
    (trans : ∀ {first middle last}, related first middle → related middle last → related first last)
    (each : ∀ state label next, step state label next → related state next)
    (run : Run step first labels last) : related first last := by
  induction run with
  | nil state => exact refl state
  | cons here _ ih => exact trans (each _ _ _ here) ih

/-- **Every run is matched by a run of the other system**, under the translation of its labels. -/
theorem simulates {other : τ → κ → τ → Prop} (related : σ → τ → Prop) (translate : ℓ → List κ)
    (matched : ∀ state label next abstract, step state label next → related state abstract →
      ∃ result, Run other abstract (translate label) result ∧ related next result)
    (run : Run step first labels last) {abstract : τ} (start : related first abstract) :
    ∃ result, Run other abstract (labels.flatMap translate) result ∧ related last result := by
  induction run generalizing abstract with
  | nil => exact ⟨abstract, .nil abstract, start⟩
  | cons here _ ih =>
      obtain ⟨middle, now, after⟩ := matched _ _ _ _ here start
      obtain ⟨result, later, ending⟩ := ih after
      rw [List.flatMap_cons]
      exact ⟨result, now.append later, ending⟩

end Run

end Systems

end VineyardLoader
