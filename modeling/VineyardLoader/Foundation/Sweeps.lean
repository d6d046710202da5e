import Mathlib.Data.List.Nodup
import Mathlib.Tactic.Common
import VineyardLoader.Foundation.Effects

/-!
# Sweeping over a snapshot

A sweep visits the items of a list that was taken once, in order, and acts on those that are due
when their turn comes. Acting changes the state, and with it what is due later. If every action
is logged, the log after a sweep holds exactly the items that were due at their turn
(`mem_log_sweepState`), in the order of the snapshot and each once (`log_sweepState_sublist`).

A loop that gathers a value item by item is a fold, if each of its turns returns and leaves the
state (`foldlM_of_ok`). A fold that sets a flag leaves it set exactly if one of its items sets it
(`foldl_flag_iff`), and a loop that stores a value at each index fills the array
(`foldl_set_range`).
-/

set_option autoImplicit false

namespace VineyardLoader

/-! ## Sweeps -/

/-- An item has its only turn at its own place. -/
theorem not_mem_take_of_nodup {ι : Type} {items : List ι} {i : Nat} {item : ι}
    (nodup : items.Nodup) (here : items[i]? = some item) : item ∉ items.take i := by
  have parts : (items.take (i + 1)).Nodup := nodup.sublist (List.take_sublist _ _)
  rw [List.take_add_one, here, Option.toList_some, List.nodup_append] at parts
  exact fun member => parts.2.2 item member item (List.mem_singleton_self _) rfl

section Sweep

variable {σ ι : Type} (due : σ → ι → Prop) [∀ state item, Decidable (due state item)]
  (act : σ → ι → σ) (items : List ι) (start : σ)

/-- The state before each turn. -/
def sweepState : Nat → σ
  | 0 => start
  | i + 1 =>
      match items[i]? with
      | some item =>
          if due (sweepState i) item then act (sweepState i) item else sweepState i
      | none => sweepState i

variable {items : List ι} {i n : Nat} {item : ι}

theorem sweepState_succ (here : items[i]? = some item) :
    sweepState due act items start (i + 1) =
      if due (sweepState due act items start i) item then
        act (sweepState due act items start i) item
      else sweepState due act items start i := by
  rw [sweepState, here]

variable {due : σ → ι → Prop} [∀ state item, Decidable (due state item)]
  {act : σ → ι → σ} {start : σ}

/-- What every action preserves, the sweep preserves. -/
theorem sweepState_invariant (invariant : σ → Prop) (initially : invariant start)
    (acts : ∀ state item, invariant state → invariant (act state item)) (n : Nat) :
    invariant (sweepState due act items start n) := by
  induction n with
  | zero => exact initially
  | succ n ih =>
      rw [sweepState]
      split
      · split
        · exact acts _ _ ih
        · exact ih
      · exact ih

variable {log : σ → List ι} (logged : ∀ state item, log (act state item) = log state ++ [item])
  (empty : log start = [])

include logged empty

/-- **The log keeps the order of the snapshot** and takes no item twice. -/
theorem log_sweepState_sublist (inside : n ≤ items.length) :
    (log (sweepState due act items start n)).Sublist (items.take n) := by
  induction n with
  | zero => rw [sweepState, empty]; exact List.nil_sublist _
  | succ n ih =>
      have before := ih (Nat.le_of_succ_le inside)
      have here : items[n]? = some items[n] := List.getElem?_eq_getElem inside
      rw [sweepState_succ due act start here, List.take_add_one, here, Option.toList_some]
      split
      · rw [logged]
        exact before.append_right _
      · exact before.trans (List.sublist_append_left _ _)

/-- **The log holds the items that were due at their turn.** -/
theorem mem_log_sweepState (nodup : items.Nodup) (here : items[i]? = some item)
    (later : i < n) (inside : n ≤ items.length) :
    item ∈ log (sweepState due act items start n) ↔
      due (sweepState due act items start i) item := by
  induction n with
  | zero => exact absurd later (Nat.not_lt_zero i)
  | succ n ih =>
      have turn : items[n]? = some items[n] := List.getElem?_eq_getElem inside
      rw [sweepState_succ due act start turn]
      rcases Nat.lt_succ_iff_lt_or_eq.mp later with before | rfl
      · have other : item ≠ items[n] := by
          intro same
          have early : items[n] ∈ items.take n := by
            rw [← same]
            exact List.mem_take_iff_getElem.mpr
              ⟨i, by have := (List.getElem?_eq_some_iff.mp here).1; omega,
                (List.getElem?_eq_some_iff.mp here).2⟩
          exact not_mem_take_of_nodup nodup turn early
        rw [← ih before (Nat.le_of_succ_le inside)]
        split
        · rw [logged]
          simp [other]
        · rfl
      · have same : items[i] = item := Option.some.inj (turn.symm.trans here)
        have fresh : item ∉ log (sweepState due act items start i) := fun member =>
          not_mem_take_of_nodup nodup here
            ((log_sweepState_sublist logged empty (Nat.le_of_succ_le inside)).subset member)
        rw [same]
        split
        · rename_i isDue
          rw [logged]
          simp [isDue]
        · rename_i notDue
          exact iff_of_false fresh notDue

end Sweep

/-! ## Folds -/

section Folds

variable {ε σ α β : Type}

/-- **A loop whose turns return and leave the state is a fold.** -/
theorem foldlM_of_ok {body : β → α → EStateM ε σ β} {step : β → α → β} {state : σ}
    (invariant : β → Prop) (keeps : ∀ value item, invariant value → invariant (step value item)) :
    ∀ {items : List α} {value : β}, invariant value →
      (∀ value, invariant value → ∀ item ∈ items,
        body value item state = .ok (step value item) state) →
      items.foldlM body value state = .ok (items.foldl step value) state
  | [], _, _, _ => rfl
  | item :: items, value, holds, turn => by
      rw [List.foldlM_cons, bind_of_ok (turn value holds item List.mem_cons_self)]
      exact foldlM_of_ok invariant keeps (keeps value item holds) fun other holdsToo next member =>
        turn other holdsToo next (List.mem_cons_of_mem _ member)

/-- A flag is set after a fold if it was set before or one of the items sets it. -/
theorem foldl_flag_iff {step : β → α → β} (flag : β → Prop) {sets : α → Prop}
    (turn : ∀ value item, flag (step value item) ↔ flag value ∨ sets item) (items : List α)
    (value : β) : flag (items.foldl step value) ↔ flag value ∨ ∃ item ∈ items, sets item := by
  induction items generalizing value with
  | nil => simp
  | cons item items ih =>
      rw [List.foldl_cons, ih, turn, List.exists_mem_cons_iff, or_assoc]

/-- Storing a value at each index of an array fills its beginning. -/
theorem foldl_set_range (value : Nat → α) (array : List α) {n : Nat} (inside : n ≤ array.length) :
    (List.range n).foldl (fun array i => array.set i (value i)) array =
      (List.range n).map value ++ array.drop n := by
  induction n with
  | zero => rfl
  | succ n ih =>
      have rest : array.drop n = array[n] :: array.drop (n + 1) := List.drop_eq_getElem_cons inside
      rw [List.range_succ, List.foldl_append, List.map_append, ih (Nat.le_of_succ_le inside), rest,
        List.foldl_cons, List.foldl_nil, List.set_append_right _ _ (by simp), List.length_map,
        List.length_range, Nat.sub_self, List.set_cons_zero, List.append_assoc]
      rfl

end Folds

end VineyardLoader
